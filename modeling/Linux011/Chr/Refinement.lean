import Mathlib.Data.List.GetD
import Linux011.Chr.Picture
import Linux011.Chr.Terminal

/-!
# The console shows what the terminal does

`Shows` relates a console with an abstract terminal: the window of the card holds its lines, and the cursor, the
region, the attribute and the saved position are the same. Every function of `kernel/chr_drv/console.c` keeps it,
and so every byte that is written has the meaning that the parser gives it.
-/

namespace Linux011.Chr

open Lib (pull push)

/-- With an odd number of columns the copies of an odd number of lines would lose a word. -/
structure Shows (s : Console) (state : Nat) (t : Terminal) : Prop where
  ok : s.Ok
  even : s.videoNumColumns % 2 = 0
  state_eq : s.state = state
  cells : ∀ r < 25, ∀ c < s.videoNumColumns, s.grid r c = t.grid r c
  columns : t.columns = s.videoNumColumns
  lines : t.lines = 25
  blank : t.blank = s.videoEraseChar
  attr : t.attr = s.attr
  x : t.x = s.x
  y : t.y = s.y
  top : t.top = s.top
  bottom : t.bottom = s.bottom
  savedX : t.savedX = s.savedX
  savedY : t.savedY = s.savedY

namespace Shows

variable {s : Console} {state : Nat} {t : Terminal}

/-- The cursor is somewhere else. -/
theorem moved (h : Shows s state t) {x y pos x' y' : Nat} (hok : Console.Ok { s with x, y, pos }) (hx : x' = x)
    (hy : y' = y) : Shows { s with x, y, pos } state { t with x := x', y := y' } :=
  { h with ok := hok, x := hx, y := hy }

/-- The window has other words, and may be elsewhere. -/
theorem drawn (h : Shows s state t) {origin scrEnd pos : Nat} {screen : Screen} {grid : Nat → Nat → BitVec 16}
    (hok : Console.Ok { s with origin, scrEnd, pos, screen })
    (hcells : ∀ r < 25, ∀ c < s.videoNumColumns, Console.grid { s with origin, scrEnd, pos, screen } r c = grid r c) :
    Shows { s with origin, scrEnd, pos, screen } state { t with grid } :=
  { h with ok := hok, cells := hcells }

/-! ## Lines -/

/-- Scrolling leaves everything but the window alone. -/
theorem scrup_eq (s : Console) : s.scrup =
    { s with
      origin := s.scrup.origin
      scrEnd := s.scrup.scrEnd
      pos := s.scrup.pos
      screen := s.scrup.screen } := by
  unfold Console.scrup
  split
  · split
    · simp only
      split
      · rfl
      · rfl
    · rfl
  · rfl

theorem scrup (h : Shows s state t) : Shows s.scrup state (t.up t.top t.bottom 1) := by
  have hok := h.ok.scrup
  have hgrid : ∀ r < 25, ∀ c < s.videoNumColumns, s.scrup.grid r c = (t.up t.top t.bottom 1).grid r c := by
    intro r hr c hc
    rw [Console.grid_scrup h.ok h.even hr hc, ← h.top, ← h.bottom]
    apply Lib.pull_congr (fun line : Nat → BitVec 16 => line c) (m := 25)
    · exact h.blank.symm
    · exact fun k hk => h.cells k hk c hc
    · rw [h.bottom, ← h.ok.lines]
      exact h.ok.bottom_le
    · exact hr
  rw [scrup_eq] at hok hgrid ⊢
  exact h.drawn hok hgrid

theorem scrdown (h : Shows s state t) : Shows s.scrdown state (t.down t.top t.bottom 1) := by
  refine h.drawn h.ok.scrdown fun r hr c hc => ?_
  show s.scrdown.grid r c = _
  rw [Console.grid_scrdown h.ok h.even hc, ← h.top, ← h.bottom]
  apply Lib.push_congr (fun line : Nat → BitVec 16 => line c) (m := 25)
  · exact h.blank.symm
  · exact fun k hk => h.cells k hk c hc
  · exact hr

theorem lf (h : Shows s state t) : Shows s.lf state t.lineFeed := by
  have hok := h.ok.lf
  have hmore : t.y + 1 < t.bottom ↔ s.y + 1 < s.bottom := by rw [h.y, h.bottom]
  unfold Console.lf at hok ⊢
  unfold Terminal.lineFeed
  by_cases hy : s.y + 1 < s.bottom
  · rw [if_pos hy] at hok ⊢
    rw [if_pos (hmore.mpr hy)]
    exact h.moved hok h.x (congrArg (· + 1) h.y)
  · rw [if_neg hy, if_neg (hmore.not.mpr hy)]
    exact h.scrup

theorem ri (h : Shows s state t) : Shows s.ri state t.reverseLineFeed := by
  have hok := h.ok.ri
  have hmore : t.y > t.top ↔ s.y > s.top := by rw [h.y, h.top]
  unfold Console.ri at hok ⊢
  unfold Terminal.reverseLineFeed
  by_cases hy : s.y > s.top
  · rw [if_pos hy] at hok ⊢
    rw [if_pos (hmore.mpr hy)]
    exact h.moved hok h.x (congrArg (· - 1) h.y)
  · rw [if_neg hy, if_neg (hmore.not.mpr hy)]
    exact h.scrdown

/-- The lines from the cursor on are a scrolling region. -/
theorem fromCursor (h : Shows s state t) :
    Shows { s with top := s.y, bottom := s.videoNumLines } state { t with top := t.y, bottom := t.lines } :=
  { h with ok := h.ok.fromCursor, top := h.y, bottom := h.lines.trans h.ok.lines.symm }

theorem insertLine (h : Shows s state t) : Shows s.insertLine state (t.down t.y t.lines 1) :=
  { h.fromCursor.scrdown with ok := h.ok.insertLine, top := h.top, bottom := h.bottom }

theorem deleteLine (h : Shows s state t) : Shows s.deleteLine state (t.up t.y t.lines 1) :=
  have hup := h.fromCursor.scrup
  { hup with ok := h.ok.deleteLine, top := h.top, bottom := h.bottom }

/-! ## The cursor -/

/-- An unsigned number that stands for a signed one, as far as a limit goes. -/
def Fits (m limit : Nat) (z : Int) : Prop := (m : Int) = z ∨ limit < m ∧ (z < 0 ∨ limit < z)

theorem gotoxy (h : Shows s state t) {newX newY : Nat} {x y : Int} (hx : Fits newX s.videoNumColumns x)
    (hy : Fits newY 24 y) : Shows (s.gotoxy newX newY) state (t.goto x y) := by
  have hok := h.ok.gotoxy newX newY
  have hlines := h.ok.lines
  have hcolumns := h.columns
  have hlines' := h.lines
  unfold Console.gotoxy at hok ⊢
  unfold Terminal.goto
  unfold Fits at hx hy
  by_cases hin : newX ≤ s.videoNumColumns ∧ newY ≤ 24
  · rw [if_neg (by omega)] at hok ⊢
    rw [if_pos (by omega)]
    exact h.moved hok (by omega) (by omega)
  · rw [if_pos (by omega), if_neg (by omega)]
    exact h

theorem fits_nat (m limit : Nat) : Fits m limit m := Or.inl rfl

/-- Sums and differences of 32 bits are those with a signed number. -/
theorem fits_add32 {a n limit : Nat} (ha : a < 2 ^ 31) (hn : n < 2 ^ 32) (hlimit : limit < 2 ^ 31) :
    Fits (add32 a n) limit (a + Parser.signed n) := by
  unfold Fits add32 Parser.signed
  split
  · omega
  · omega

theorem fits_sub32 {a n limit : Nat} (ha : a < 2 ^ 31) (hn : n < 2 ^ 32) (hlimit : limit < 2 ^ 31) :
    Fits (sub32 a n) limit (a + -Parser.signed n) := by
  unfold Fits sub32 Parser.signed
  split
  · omega
  · omega

/-- From where the cursor is, by a signed number of columns or lines. -/
theorem fits_x (h : Shows s state t) : Fits s.x s.videoNumColumns (t.x + 0) := by
  rw [h.x, Int.add_zero]
  exact fits_nat _ _

theorem fits_y (h : Shows s state t) : Fits s.y 24 (t.y + 0) := by
  rw [h.y, Int.add_zero]
  exact fits_nat _ _

theorem x_lt (h : Shows s state t) : s.x < 2 ^ 31 ∧ s.videoNumColumns < 2 ^ 31 := by
  have hx := h.ok.x_le
  have hmax := h.ok.columns.2
  omega

theorem y_lt (h : Shows s state t) : s.y < 2 ^ 31 := by
  have hy := h.ok.y_lt
  have hlines := h.ok.lines
  omega

theorem right_x (h : Shows s state t) {n : Nat} (hn : n < 2 ^ 32) :
    Fits (add32 s.x n) s.videoNumColumns (t.x + Parser.signed n) := by
  rw [h.x]
  exact fits_add32 h.x_lt.1 hn h.x_lt.2

theorem left_x (h : Shows s state t) {n : Nat} (hn : n < 2 ^ 32) :
    Fits (sub32 s.x n) s.videoNumColumns (t.x + -Parser.signed n) := by
  rw [h.x]
  exact fits_sub32 h.x_lt.1 hn h.x_lt.2

theorem down_y (h : Shows s state t) {n : Nat} (hn : n < 2 ^ 32) :
    Fits (add32 s.y n) 24 (t.y + Parser.signed n) := by
  rw [h.y]
  exact fits_add32 h.y_lt hn (by decide)

theorem up_y (h : Shows s state t) {n : Nat} (hn : n < 2 ^ 32) :
    Fits (sub32 s.y n) 24 (t.y + -Parser.signed n) := by
  rw [h.y]
  exact fits_sub32 h.y_lt hn (by decide)

theorem cr (h : Shows s state t) : Shows s.cr state { t with x := 0 } := h.moved h.ok.cr rfl h.y

theorem put (h : Shows s state t) (hx : s.x < s.videoNumColumns) {w w' : BitVec 16} (hw : w' = w) :
    Shows { s with screen := s.screen.store s.pos w } state (t.put w') := by
  subst hw
  refine h.drawn (h.ok.store hx w') fun r hr c hc => ?_
  have hrow := cell_le (y := s.y) (r := r) (Nat.le_of_lt hx) hc
  have hnext := cell_le (y := s.y) (r := r) (x := s.x + 1) hx hc
  show Console.grid { s with screen := s.screen.store s.pos w' } r c =
    Function.update t.grid t.y (Function.update (t.grid t.y) t.x w') r c
  have hstore := Console.grid_store (s := s) (r := r) (c := c) (s.y * s.videoNumColumns + s.x) w'
  rw [← h.ok.pos_cell] at hstore
  rw [hstore, h.x, h.y, Function.update_apply]
  by_cases hr' : r = s.y
  · rw [if_pos hr', Function.update_apply]
    by_cases hc' : c = s.x
    · rw [if_pos (by omega), if_pos hc']
    · rw [if_neg (by omega), if_neg hc', ← hr']
      exact h.cells r hr c hc
  · rw [if_neg (by omega), if_neg hr']
    exact h.cells r hr c hc

/-- Back in the line. -/
theorem back (h : Shows s state t) {k : Nat} (hk : k ≤ s.x) :
    Shows { s with pos := sub32 s.pos (k * 2), x := s.x - k } state { t with x := t.x - k } :=
  h.moved (h.ok.back hk).2 (congrArg (· - k) h.x) h.y

theorem del (h : Shows s state t) : Shows s.del state t.delete := by
  unfold Console.del Terminal.delete
  by_cases hx : s.x = 0
  · rw [if_neg (not_not.mpr hx), if_pos (h.x.trans hx)]
    exact h
  · rw [if_pos hx, if_neg (h.x ▸ hx)]
    have hlt := Nat.lt_of_lt_of_le (Nat.sub_lt (Nat.pos_of_ne_zero hx) Nat.one_pos) h.ok.x_le
    exact (h.back (Nat.one_le_iff_ne_zero.mpr hx)).put hlt h.blank

/-- A cursor past the edge goes to the next line. -/
theorem wrap (h : Shows s state t) {c : Nat} (hc : s.x + c ≤ 2 * s.videoNumColumns)
    (hover : s.videoNumColumns ≤ s.x + c) :
    Shows (Console.lf { s with
      x := s.x + c - s.videoNumColumns
      pos := sub32 (s.pos + c * 2) s.videoSizeRow }) state
      (Terminal.lineFeed { t with x := t.x + c - t.columns }) := by
  apply lf
  apply h.moved (h.ok.wrapped hc hover)
  · rw [h.x, h.columns]
  · exact h.y

theorem print (h : Shows s state t) (c : Nat) : Shows (s.print c) state (t.print c) := by
  have hmin := h.ok.columns.1
  have hx := h.ok.x_le
  -- In either case the cursor stands before the edge when the character is stored.
  have hafter : ∀ {s : Console} {t : Terminal}, Shows s state t → s.x < s.videoNumColumns → Shows { s with
      screen := s.screen.store s.pos (s.attr ++ BitVec.ofNat 8 c)
      pos := s.pos + 2
      x := s.x + 1 } state { t.put (t.attr ++ BitVec.ofNat 8 c) with x := t.x + 1 } := by
    intro s t h hx
    have hput := h.put hx (congrArg (· ++ BitVec.ofNat 8 c) h.attr)
    refine hput.moved ?_ (congrArg (· + 1) h.x) h.y
    refine { hput.ok with x_le := hx, pos_eq := ?_ }
    have hpos := h.ok.pos_eq
    show s.pos + 2 = s.origin + s.y * s.videoSizeRow + 2 * (s.x + 1)
    omega
  unfold Console.print Terminal.print
  simp only
  by_cases hedge : s.videoNumColumns ≤ s.x
  · rw [if_pos hedge, if_pos (by rw [h.x, h.columns]; exact hedge)]
    apply hafter (h.wrap (c := 0) (by omega) hedge)
    rw [(Console.lf_x _).1, (Console.lf_x _).2]
    show s.x - s.videoNumColumns < s.videoNumColumns
    omega
  · rw [if_neg hedge, if_neg (by rw [h.x, h.columns]; exact hedge)]
    exact hafter h (Nat.not_le.mp hedge)

theorem tab (h : Shows s state t) : Shows s.tab state t.tab := by
  have hmin := h.ok.columns.1
  have hx := h.ok.x_le
  have hok := h.ok.tab
  have hsame : 8 - s.x % 8 = 8 - t.x % 8 := by rw [h.x]
  unfold Console.tab at hok ⊢
  unfold Terminal.tab
  simp only at hok ⊢
  by_cases hover : s.x + (8 - s.x % 8) > s.videoNumColumns
  · rw [if_pos hover, if_neg (by rw [h.x, h.columns]; omega), ← hsame]
    exact h.wrap (by omega) (Nat.le_of_lt hover)
  · rw [if_neg hover] at hok ⊢
    rw [if_pos (by rw [h.x, h.columns]; omega), ← hsame]
    exact h.moved hok (congrArg (· + (8 - s.x % 8)) h.x) h.y

/-! ## Erasing -/

/-- The cells of a part are erased. -/
theorem erase (h : Shows s state t) {count k : Nat} {grid : Nat → Nat → BitVec 16} (hok : (s.erase count (s.origin + 2 * k)).Ok)
    (hcells : ∀ r < 25, ∀ c < s.videoNumColumns, grid r c =
      if k ≤ r * s.videoNumColumns + c ∧ r * s.videoNumColumns + c < k + count then s.videoEraseChar else t.grid r c) :
    Shows (s.erase count (s.origin + 2 * k)) state { t with grid } := by
  refine h.drawn hok fun r hr c hc => ?_
  rw [hcells r hr c hc, ← h.cells r hr c hc]
  exact Console.grid_erase count k

/-- The parts of the screen, in numbers of cells. -/
theorem has_behind (h : Shows s state t) {r c : Nat} (hc : c < s.videoNumColumns) :
    t.Has .behind r c ↔ s.y * s.videoNumColumns + s.x ≤ r * s.videoNumColumns + c := by
  rw [cell_le h.ok.x_le hc, ← h.x, ← h.y]
  rfl

theorem has_before (h : Shows s state t) {r c : Nat} (hc : c < s.videoNumColumns) :
    t.Has .before r c ↔ r * s.videoNumColumns + c < s.y * s.videoNumColumns + s.x := by
  rw [← Nat.not_le, cell_le h.ok.x_le hc, ← h.x, ← h.y]
  show r < t.y ∨ t.y = r ∧ c < t.x ↔ _
  omega

theorem csiJ (h : Shows s state t) (par : Nat) :
    Shows (s.csiJ par) state (t.run ((Parser.part par).map .eraseDisplay).toList) := by
  obtain ⟨hend, -, -, -, hyrow⟩ := h.ok.numbers
  obtain ⟨-, -, hlimit⟩ := h.ok.mem
  have hpos := h.ok.pos_cell
  have hx := h.ok.x_le
  have hfits := h.ok.end_le
  have hrow := h.ok.row
  have hy : s.y * s.videoSizeRow = 2 * (s.y * s.videoNumColumns) := by
    rw [hrow]
    ring
  have hok := h.ok.csiJ par
  unfold Console.csiJ at hok ⊢
  match par with
  | 0 =>
    simp only at hok ⊢
    rw [sub32_of_le (by omega) (by omega), hpos] at hok ⊢
    apply h.erase hok
    intro r hr c hc
    have hin := cell_lt (b := 25) (r := r) hc
    simp only [h.has_behind hc, h.blank]
    congr 1
    apply propext
    omega
  | 1 =>
    simp only at hok ⊢
    rw [sub32_of_le (by omega) (by omega)] at hok ⊢
    apply h.erase (k := 0) hok
    intro r hr c hc
    simp only [h.has_before hc, h.blank]
    congr 1
    apply propext
    omega
  | 2 =>
    apply h.erase (k := 0) hok
    intro r hr c hc
    have hin := cell_lt (b := 25) (r := r) hc
    rw [h.ok.lines, Nat.mul_comm s.videoNumColumns]
    rw [← h.blank]
    exact (if_pos trivial).trans (if_pos ⟨Nat.zero_le _, by omega⟩).symm
  | par + 3 => exact h

theorem csiK (h : Shows s state t) (par : Nat) :
    Shows (s.csiK par) state (t.run ((Parser.part par).map .eraseLine).toList) := by
  have hpos := h.ok.pos_cell
  have hx := h.ok.x_le
  obtain ⟨hback, -⟩ := h.ok.back (Nat.le_refl s.x)
  have hstart : sub32 s.pos (s.x * 2) = s.origin + 2 * (s.y * s.videoNumColumns) := by
    rw [hback, Nat.sub_self, h.ok.row]
    ring
  -- The line of the cursor, in numbers of cells.
  have hline : ∀ {r c : Nat}, c < s.videoNumColumns → (r = t.y ↔ s.y * s.videoNumColumns ≤ r * s.videoNumColumns + c ∧
      r * s.videoNumColumns + c < s.y * s.videoNumColumns + s.videoNumColumns) := by
    intro r c hc
    have hnext := cell_lt (b := s.y + 1) (r := r) hc
    rw [Nat.succ_mul s.y] at hnext
    rw [h.y, le_cell hc, hnext]
    omega
  have hok := h.ok.csiK par
  unfold Console.csiK at hok ⊢
  match par with
  | 0 =>
    simp only at hok ⊢
    by_cases hedge : s.x ≥ s.videoNumColumns
    · rw [if_pos hedge]
      refine { h with cells := fun r hr c hc => ?_ }
      rw [h.cells r hr c hc]
      refine (if_neg ?_).symm
      rw [hline hc, h.has_behind hc]
      omega
    · rw [if_neg hedge] at hok ⊢
      rw [sub32_of_le (by omega) (by have hmax := h.ok.columns; omega), hpos] at hok ⊢
      apply h.erase hok
      intro r hr c hc
      simp only [hline hc, h.has_behind hc, h.blank]
      congr 1
      apply propext
      omega
  | 1 =>
    have hcount : (if s.x < s.videoNumColumns then s.x else s.videoNumColumns) = s.x := by
      split
      · rfl
      · omega
    simp only at hok ⊢
    rw [hstart, hcount] at hok ⊢
    apply h.erase hok
    intro r hr c hc
    simp only [hline hc, h.has_before hc, h.blank]
    congr 1
    apply propext
    omega
  | 2 =>
    simp only at hok ⊢
    rw [hstart] at hok ⊢
    apply h.erase hok
    intro r hr c hc
    rw [← h.blank]
    simp only [← hline hc]
    congr 1
    apply propext
    exact and_iff_left trivial
  | par + 3 => exact h

/-! ## Counts -/

theorem insertChar (h : Shows s state t) : Shows s.insertChar state (t.insertChars 1) := by
  refine h.drawn h.ok.insertChar fun r hr c hc => ?_
  show s.insertChar.grid r c = _
  rw [Console.grid_insertChar h.ok hc, ← h.x, ← h.y, ← h.columns, ← h.blank]
  have hy : t.y < 25 := h.y ▸ h.ok.lines ▸ h.ok.y_lt
  have hline : push t.x t.columns 1 t.blank (s.grid t.y) c = push t.x t.columns 1 t.blank (t.grid t.y) c :=
    Lib.push_congr id rfl (h.cells t.y hy) hc
  rw [Function.update_apply, Function.update_apply]
  split
  · exact hline
  · exact h.cells r hr c hc

theorem deleteChar (h : Shows s state t) : Shows s.deleteChar state (t.deleteChars 1) := by
  have hok := h.ok.deleteChar
  have hgrid : ∀ r < 25, ∀ c < s.videoNumColumns, s.deleteChar.grid r c = (t.deleteChars 1).grid r c := by
    intro r hr c hc
    have hy : t.y < 25 := h.y ▸ h.ok.lines ▸ h.ok.y_lt
    have hline : pull t.x t.columns 1 t.blank (s.grid t.y) c = pull t.x t.columns 1 t.blank (t.grid t.y) c :=
      Lib.pull_congr id rfl (h.cells t.y hy) (Nat.le_of_eq h.columns) hc
    rw [Console.grid_deleteChar h.ok hc, ← h.x, ← h.y, ← h.columns, ← h.blank]
    show _ = Function.update t.grid t.y _ r c
    rw [Function.update_apply, Function.update_apply]
    split
    · exact hline
    · exact h.cells r hr c hc
  unfold Console.deleteChar at hok hgrid ⊢
  split
  · next hedge =>
    rw [if_pos hedge] at hgrid
    exact { h with cells := hgrid }
  · next hedge =>
    rw [if_neg hedge] at hok hgrid
    exact h.drawn hok hgrid

/-- What is done a number of times. -/
theorem iterate {f : Console → Console} {g : Terminal → Terminal}
    (hf : ∀ s t, Shows s state t → Shows (f s) state (g t)) (h : Shows s state t) (n : Nat) :
    Shows (f^[n] s) state (g^[n] t) := by
  induction n generalizing s t with
  | zero => exact h
  | succ n ih =>
    rw [Function.iterate_succ_apply, Function.iterate_succ_apply]
    exact ih (hf s t h)

/-- `nr` is cut off at the limit `m`, where more does not make a difference. -/
theorem times_same {g : Nat → Terminal} (nr : Nat) {m : Nat} (hg : ∀ n n', m ≤ n → m ≤ n' → g n = g n') :
    g (Console.times nr m) = g (max 1 nr) := by
  unfold Console.times
  split
  · exact hg _ _ (Nat.le_refl m) (by omega)
  · split
    · next hzero =>
      rw [hzero]
      rfl
    · next hzero => rw [Nat.max_eq_right (Nat.one_le_iff_ne_zero.mpr hzero)]

theorem csiL (h : Shows s state t) (nr : Nat) : Shows (s.csiL nr) state (t.down t.y t.lines (max 1 nr)) := by
  have hlimit := h.lines.trans h.ok.lines.symm
  have hsame := times_same (g := t.down t.y t.lines) nr (m := t.lines) fun _ _ => Terminal.down_of_le
  unfold Console.csiL
  rw [← hlimit, ← hsame, ← Terminal.iterate_down]
  exact iterate (fun _ _ => insertLine) h _

theorem csiM (h : Shows s state t) (nr : Nat) : Shows (s.csiM nr) state (t.up t.y t.lines (max 1 nr)) := by
  have hlimit := h.lines.trans h.ok.lines.symm
  have hsame := times_same (g := t.up t.y t.lines) nr (m := t.lines) fun _ _ => Terminal.up_of_le
  unfold Console.csiM
  rw [← hlimit, ← hsame, ← Terminal.iterate_up]
  exact iterate (fun _ _ => deleteLine) h _

theorem csiAt (h : Shows s state t) (nr : Nat) : Shows (s.csiAt nr) state (t.insertChars (max 1 nr)) := by
  have hlimit := h.columns
  have hsame := times_same (g := t.insertChars) nr (m := t.columns) fun _ _ => Terminal.insertChars_of_le
  unfold Console.csiAt
  rw [← hlimit, ← hsame, ← Terminal.iterate_insertChars]
  exact iterate (fun _ _ => insertChar) h _

theorem csiP (h : Shows s state t) (nr : Nat) : Shows (s.csiP nr) state (t.deleteChars (max 1 nr)) := by
  have hlimit := h.columns
  have hsame := times_same (g := t.deleteChars) nr (m := t.columns) fun _ _ => Terminal.deleteChars_of_le
  unfold Console.csiP
  rw [← hlimit, ← hsame, ← Terminal.iterate_deleteChars]
  exact iterate (fun _ _ => deleteChar) h _

/-! ## The saved cursor, the region and the parameters -/

theorem saveCur (h : Shows s state t) : Shows s.saveCur state t.save :=
  { h with ok := { h.ok with }, savedX := h.x, savedY := h.y }

theorem restoreCur (h : Shows s state t) : Shows s.restoreCur state t.restore := by
  unfold Console.restoreCur Terminal.restore
  rw [h.savedX, h.savedY]
  exact h.gotoxy (fits_nat _ _) (fits_nat _ _)

theorem setState (h : Shows s state t) (state' : Nat) : Shows { s with state := state' } state' t :=
  { h with ok := h.ok.setState state', state_eq := rfl }

theorem setPar (h : Shows s state t) (i v : Nat) : Shows (s.setPar i v) state t :=
  { h with ok := h.ok.setPar i v }

/-- `if (!par[i]) par[i]++` -/
theorem atLeastOne (h : Shows s state t) (i : Nat) :
    Shows (s.atLeastOne i) state t ∧ (s.atLeastOne i).par i = max 1 (s.par i) := by
  unfold Console.atLeastOne
  split
  · next hzero =>
    refine ⟨h.setPar i 1, ?_⟩
    show Function.update s.par i 1 i = _
    rw [Function.update_self, hzero]
    rfl
  · exact ⟨h, by omega⟩

/-- `if (par[i]) par[i]--` -/
theorem fromZero (h : Shows s state t) (i : Nat) : Shows (s.fromZero i) state t ∧ (s.fromZero i).par i = s.par i - 1 ∧
    ∀ j ≠ i, (s.fromZero i).par j = s.par j := by
  unfold Console.fromZero
  split
  · refine ⟨h.setPar i _, ?_, fun j hj => ?_⟩
    · exact Function.update_self ..
    · exact Function.update_of_ne hj ..
  · exact ⟨h, by omega, fun j _ => rfl⟩

/-- The attributes are those of all parameters, in order. -/
theorem paint_eq (par : Nat → Nat) (pars : List Nat) (attr : BitVec 8) (hpar : ∀ i < pars.length, par i = pars.getD i 0) :
    (List.range pars.length).foldl (fun attr i => Console.paint (par i) attr) attr =
      pars.foldl Terminal.shade attr := by
  have hmap : (List.range pars.length).map par = pars := by
    apply List.ext_getElem
    · rw [List.length_map, List.length_range]
    · intro i hi hi'
      rw [List.getElem_map, List.getElem_range, hpar i hi', List.getD_eq_getElem _ _ hi']
  have hshade : Console.paint = fun par attr => Terminal.shade attr par := by
    funext par attr
    unfold Console.paint Terminal.shade
    grind
  conv_rhs => rw [← hmap, List.foldl_map]
  rw [hshade]

/-! ## The end of a sequence -/

/-- The parameters of the console, of 32 bits. -/
structure Pars (s : Console) (pars : List Nat) : Prop where
  npar : s.npar + 1 = pars.length
  le : pars.length ≤ nPar
  par : ∀ i < nPar, s.par i = pars.getD i 0
  lt : ∀ n ∈ pars, n < 2 ^ 32

theorem Pars.getD_lt {pars : List Nat} (h : Pars s pars) (i : Nat) : pars.getD i 0 < 2 ^ 32 := by
  by_cases hi : i < pars.length
  · rw [List.getD_eq_getElem _ _ hi]
    exact h.lt _ (List.getElem_mem hi)
  · rw [List.getD_eq_default _ _ (Nat.not_lt.mp hi)]
    decide

theorem csi_m (h : Shows s state t) {pars : List Nat} (hpars : Pars s pars) :
    Shows s.csi_m state { t with attr := pars.foldl Terminal.shade t.attr } := by
  refine { h with ok := { h.ok with }, attr := ?_ }
  show _ = (List.range (s.npar + 1)).foldl _ s.attr
  have hle := hpars.le
  rw [hpars.npar, paint_eq s.par pars s.attr fun i hi => hpars.par i (by omega), h.attr]

/-- The region is set only if it is one. -/
theorem region (h : Shows s state t) {top bottom bottom' : Nat} (hbottom : bottom' = bottom) :
    Shows (if top < bottom ∧ bottom ≤ s.videoNumLines then { s with top, bottom } else s) state
      (if top < bottom' ∧ bottom' ≤ t.lines then { t with top, bottom := bottom' } else t) := by
  have hlines : t.lines = s.videoNumLines := h.lines.trans h.ok.lines.symm
  subst hbottom
  by_cases hin : top < bottom' ∧ bottom' ≤ s.videoNumLines
  · rw [if_pos hin, if_pos (hlines ▸ hin)]
    exact { h with ok := { h.ok with top_lt := hin.1, bottom_le := hin.2 }, top := rfl, bottom := rfl }
  · rw [if_neg hin, if_neg (hlines ▸ hin)]
    exact h

/-- Without a last line it reaches to the end of the screen. -/
theorem setRegion (h : Shows s state t) {first second : Nat} (hfirst : s.par 0 = first) (hsecond : s.par 1 = second) :
    let s' := if s.par 1 = 0 then s.setPar 1 s.videoNumLines else s
    Shows (if s'.par 0 < s'.par 1 ∧ s'.par 1 ≤ s'.videoNumLines then { s' with top := s'.par 0, bottom := s'.par 1 } else s')
      state (t.region first (if second = 0 then none else some second)) := by
  subst hfirst hsecond
  unfold Terminal.region
  by_cases hzero : s.par 1 = 0
  · simp only [if_pos hzero, Option.getD_none]
    exact (h.setPar 1 s.videoNumLines).region (h.lines.trans h.ok.lines.symm)
  · simp only [if_neg hzero, Option.getD_some]
    exact h.region rfl

theorem case4 (h : Shows s state t) {pars : List Nat} (hpars : Pars s pars) (c : Nat) :
    Shows (s.case4 c) 0 (t.run (Parser.sequence c pars).toList) := by
  have h0 := h.setState 0
  have hpars0 : Pars { s with state := 0 } pars := { hpars with }
  obtain ⟨command, hcommand⟩ : ∃ command, Parser.sequence c pars = command := ⟨_, rfl⟩
  rw [hcommand]
  unfold Parser.sequence at hcommand
  unfold Console.case4
  simp only
  generalize { s with state := 0 } = s at h0 hpars0
  obtain ⟨hone, hcount⟩ := h0.atLeastOne 0
  obtain ⟨hzero, hfirst, hother⟩ := h0.fromZero 0
  have hlt := hpars.getD_lt 0
  have hlt' : max 1 (pars.getD 0 0) < 2 ^ 32 := Nat.max_lt.mpr ⟨by decide, hlt⟩
  rw [hpars0.par 0 (by decide)] at hcount hfirst
  have hsecond : (s.fromZero 0).par 1 = pars.getD 1 0 := by
    rw [hother 1 (by decide)]
    exact hpars0.par 1 (by decide)
  -- The column of `G` and of the character 96.
  have hcolumn : Shows (Console.gotoxy ((s.fromZero 0).par 0) (s.fromZero 0).y (s.fromZero 0)) 0
      (t.goto (pars.getD 0 0 - 1 : Nat) t.y) := by
    rw [hfirst]
    exact hzero.gotoxy (fits_nat _ _) (hzero.y ▸ fits_nat _ _)
  have hgoto : Shows (Console.gotoxy (((s.fromZero 0).fromZero 1).par 1) (((s.fromZero 0).fromZero 1).par 0)
      ((s.fromZero 0).fromZero 1)) 0 (t.goto (pars.getD 1 0 - 1 : Nat) (pars.getD 0 0 - 1 : Nat)) := by
    obtain ⟨hzero', hsecond', hother'⟩ := hzero.fromZero 1
    rw [hsecond', hother' 0 (by decide), hfirst, hsecond]
    exact hzero'.gotoxy (fits_nat _ _) (fits_nat _ _)
  have hregion := hzero.setRegion hfirst hsecond
  by_cases h96 : c = 96
  · subst h96
    subst hcommand
    exact hcolumn
  · rw [if_neg h96] at hcommand ⊢
    generalize Char.ofNat c = ch at hcommand ⊢
    split
    · subst hcommand
      exact hcolumn
    · subst hcommand
      rw [hcount]
      exact hone.gotoxy hone.fits_x (hone.up_y hlt')
    · subst hcommand
      rw [hcount]
      exact hone.gotoxy hone.fits_x (hone.down_y hlt')
    · subst hcommand
      rw [hcount]
      exact hone.gotoxy hone.fits_x (hone.down_y hlt')
    · subst hcommand
      rw [hcount]
      exact hone.gotoxy (hone.right_x hlt') hone.fits_y
    · subst hcommand
      rw [hcount]
      exact hone.gotoxy (hone.right_x hlt') hone.fits_y
    · subst hcommand
      rw [hcount]
      exact hone.gotoxy (hone.left_x hlt') hone.fits_y
    · subst hcommand
      rw [hcount]
      exact hone.gotoxy (fits_nat 0 _) (hone.down_y hlt')
    · subst hcommand
      rw [hcount]
      exact hone.gotoxy (fits_nat 0 _) (hone.up_y hlt')
    · subst hcommand
      rw [hfirst]
      exact hzero.gotoxy (hzero.x ▸ fits_nat _ _) (fits_nat _ _)
    · subst hcommand
      exact hgoto
    · subst hcommand
      exact hgoto
    · subst hcommand
      rw [hpars.par 0 (by decide)]
      exact h0.csiJ _
    · subst hcommand
      rw [hpars.par 0 (by decide)]
      exact h0.csiK _
    · subst hcommand
      rw [hpars.par 0 (by decide)]
      exact h0.csiL _
    · subst hcommand
      rw [hpars.par 0 (by decide)]
      exact h0.csiM _
    · subst hcommand
      rw [hpars.par 0 (by decide)]
      exact h0.csiP _
    · subst hcommand
      rw [hpars.par 0 (by decide)]
      exact h0.csiAt _
    · subst hcommand
      exact h0.csi_m hpars0
    · subst hcommand
      exact hregion
    · subst hcommand
      exact h0.saveCur
    · subst hcommand
      exact h0.restoreCur
    · -- no command ends in this character
      have hnone : command = none := by
        rw [← hcommand]
        split <;> first | contradiction | rfl
      rw [hnone]
      exact h0

end Shows

/-! ## con_write -/

/-- The console is where the parser is, and shows what the terminal does. -/
def Refines (s : Console) (t : Terminal) : Parser → Prop
  | .ground => Shows s 0 t
  | .escape => Shows s 1 t
  | .bracket => Shows s 2 t
  | .parameters done last => Shows s 3 t ∧ Shows.Pars s (done ++ [last])

namespace Refines

variable {s : Console} {t : Terminal}

theorem case0 (h : Shows s 0 t) (eraseChar c : Nat) :
    Refines (s.case0 eraseChar c) (t.run (Parser.control eraseChar c).2.toList) (Parser.control eraseChar c).1 := by
  unfold Console.case0 Parser.control
  split
  · exact h.print c
  · split
    · exact h.setState 1
    · split
      · exact h.lf
      · split
        · exact h.cr
        · split
          · exact h.del
          · split
            · split
              · next hx =>
                have hback := h.back (k := 1) (Nat.one_le_iff_ne_zero.mpr hx)
                exact hback
              · next hx =>
                have hzero : t.x - 1 = s.x := by
                  rw [h.x, not_not.mp hx]
                exact { h with x := hzero }
            · split
              · exact h.tab
              · exact h

theorem case1 (h : Shows s 1 t) (c : Nat) :
    Refines (s.case1 c) (t.run (Parser.escaped c).2.toList) (Parser.escaped c).1 := by
  have h0 := h.setState 0
  unfold Console.case1 Parser.escaped
  simp only
  split
  · exact h.setState 2
  · split
    · apply h0.gotoxy (Shows.fits_nat 0 _)
      rw [h.y]
      exact Shows.fits_nat (s.y + 1) 24
    · split
      · exact h0.ri
      · split
        · exact h0.lf
        · split
          · exact h0
          · show Shows _ 0 t.other
            unfold Terminal.other
            rw [h.x]
            split
            · exact h0.saveCur
            · split
              · exact h0.restoreCur
              · exact h0

/-- The next parameter is zero, as all behind the last one are. -/
theorem next_par {pars : List Nat} (h : Shows.Pars s pars) (hle : pars.length < nPar) :
    Shows.Pars { s with npar := s.npar + 1 } (pars ++ [0]) := by
  constructor
  case npar =>
    rw [List.length_append, List.length_singleton, ← h.npar]
  case le =>
    rw [List.length_append, List.length_singleton]
    exact hle
  case par =>
    intro i hi
    show s.par i = _
    rw [h.par i hi]
    by_cases hin : i < pars.length
    · rw [List.getD_append _ _ _ _ hin]
    · rw [List.getD_eq_default _ _ (Nat.not_lt.mp hin), List.getD_append_right _ _ _ _ (Nat.not_lt.mp hin)]
      grind
  case lt =>
    intro n hn
    rcases List.mem_append.mp hn with hn | hn
    · exact h.lt n hn
    · rw [List.mem_singleton.mp hn]
      decide

/-- A digit belongs to the last parameter. -/
theorem last_par {done : List Nat} {last : Nat} (h : Shows.Pars s (done ++ [last])) {v : Nat} (hv : v < 2 ^ 32) :
    Shows.Pars (s.setPar s.npar v) (done ++ [v]) := by
  have hnpar : s.npar = done.length := by
    have hnpar := h.npar
    rw [List.length_append, List.length_singleton] at hnpar
    omega
  have hle := h.le
  rw [List.length_append, List.length_singleton] at hle
  constructor
  case npar =>
    rw [List.length_append, List.length_singleton, ← hnpar]
    rfl
  case le =>
    rw [List.length_append, List.length_singleton]
    exact hle
  case par =>
    intro i hi
    show Function.update s.par s.npar v i = _
    rw [Function.update_apply, h.par i hi, hnpar]
    split
    · next heq => rw [heq, List.getD_append_right _ _ _ _ (Nat.le_refl _), Nat.sub_self, List.getD_cons_zero]
    · next hne =>
      by_cases hin : i < done.length
      · rw [List.getD_append _ _ _ _ hin, List.getD_append _ _ _ _ hin]
      · rw [List.getD_eq_default _ _ (by simp; omega), List.getD_eq_default _ _ (by simp; omega)]
  case lt =>
    intro n hn
    rcases List.mem_append.mp hn with hn | hn
    · exact h.lt n (List.mem_append_left _ hn)
    · rw [List.mem_singleton.mp hn]
      exact hv

theorem case3 (h : Shows s 3 t) {done : List Nat} {last : Nat} (hpars : Shows.Pars s (done ++ [last])) (c : Nat) :
    Refines (s.case3 c) (t.run (Parser.parameter c done last).2.toList) (Parser.parameter c done last).1 := by
  have hnpar : s.npar = done.length := by
    have hnpar := hpars.npar
    rw [List.length_append, List.length_singleton] at hnpar
    omega
  have hle := hpars.le
  rw [List.length_append, List.length_singleton] at hle
  have hlast : s.par s.npar = last := by
    rw [hpars.par _ (by omega), hnpar, List.getD_append_right _ _ _ _ (Nat.le_refl _), Nat.sub_self,
      List.getD_cons_zero]
  unfold Console.case3 Parser.parameter
  by_cases hmore : c = ';'.toNat ∧ done.length < 15
  · rw [if_pos hmore, if_pos (show c = ';'.toNat ∧ s.npar < nPar - 1 from ⟨hmore.1, hnpar ▸ hmore.2⟩)]
    refine ⟨{ h with ok := { h.ok with npar_lt := ?_ } }, ?_⟩
    · show s.npar + 1 < 16
      omega
    · apply next_par hpars
      rw [List.length_append, List.length_singleton]
      exact Nat.succ_lt_succ hmore.2
  · rw [if_neg hmore, if_neg (show ¬ (c = ';'.toNat ∧ s.npar < nPar - 1) from hnpar ▸ hmore)]
    split
    · next hdigit =>
      have hvalue : sub32 ((10 * last + c) % 2 ^ 32) '0'.toNat = (10 * last + (c - '0'.toNat)) % 2 ^ 32 := by
        have hzero : '0'.toNat = 48 := rfl
        unfold sub32
        omega
      rw [hlast, hvalue]
      exact ⟨h.setPar _ _, last_par hpars (Nat.mod_lt _ (by decide))⟩
    · exact (h.setState 4).case4 { hpars with } c

theorem case2 (h : Shows s 2 t) (eraseChar c : Nat) :
    Refines (s.case2 c) (t.run (Parser.feed eraseChar c .bracket).2.toList) (Parser.feed eraseChar c .bracket).1 := by
  have h3 : Shows { s with
      par := fun i => if i < nPar then 0 else s.par i
      npar := 0
      state := 3
      ques := decide (c = '?'.toNat) } 3 t :=
    { h with ok := { h.ok with npar_lt := show 0 < nPar by decide }, state_eq := rfl }
  have hpars : Shows.Pars { s with
      par := fun i => if i < nPar then 0 else s.par i
      npar := 0
      state := 3
      ques := decide (c = '?'.toNat) } ([] ++ [0]) := by
    constructor
    case npar => rfl
    case le => decide
    case par =>
      intro i hi
      show (if i < nPar then 0 else s.par i) = _
      rw [if_pos hi]
      cases i <;> rfl
    case lt =>
      intro n hn
      rw [List.mem_singleton.mp hn]
      decide
  unfold Console.case2 Parser.feed
  simp only [decide_eq_true_eq]
  split
  · exact ⟨h3, hpars⟩
  · exact case3 h3 hpars c

/-- One character, in any state of a sequence. -/
theorem putc {p : Parser} (h : Refines s t p) (eraseChar : Nat) (c : UInt8) :
    Refines (s.putc eraseChar c) (t.run (p.feed eraseChar c.toNat).2.toList) (p.feed eraseChar c.toNat).1 := by
  unfold Console.putc
  cases p with
  | ground =>
    rw [Shows.state_eq h]
    exact case0 h eraseChar _
  | escape =>
    rw [Shows.state_eq h]
    exact case1 h _
  | bracket =>
    rw [Shows.state_eq h]
    exact case2 h _ _
  | parameters done last =>
    rw [h.1.state_eq]
    exact case3 h.1 h.2 _

theorem conWrite {p : Parser} (h : Refines s t p) (eraseChar : Nat) (bytes : List UInt8) :
    let stream := bytes.map fun c => (eraseChar, c)
    Refines (s.conWrite eraseChar bytes) (t.run (p.commands stream)) (p.rest stream) := by
  unfold Console.conWrite
  induction bytes generalizing s t p with
  | nil => exact h
  | cons c bytes ih =>
    have hnext := ih (h.putc eraseChar c)
    simp only [List.map_cons, Parser.commands, Terminal.run_append]
    exact hnext

/-- Any number of calls. -/
theorem calls {p : Parser} (h : Refines s t p) (calls : List (Nat × List UInt8)) :
    let stream := calls.flatMap fun call => call.2.map fun c => (call.1, c)
    Refines (calls.foldl (fun s call => s.conWrite call.1 call.2) s) (t.run (p.commands stream)) (p.rest stream) := by
  induction calls generalizing s t p with
  | nil => exact h
  | cons call calls ih =>
    have hnext := ih (h.conWrite call.1 call.2)
    simp only [List.flatMap_cons, Parser.commands_append, Terminal.run_append]
    rw [Parser.rest_append]
    exact hnext

/-- Wherever the parser is, the screen is the same. -/
theorem shows {p : Parser} (h : Refines s t p) : ∃ state, Shows s state t := by
  cases p with
  | ground => exact ⟨0, h⟩
  | escape => exact ⟨1, h⟩
  | bracket => exact ⟨2, h⟩
  | parameters done last => exact ⟨3, h.1⟩

end Refines

/-- What a console shows. -/
def Console.terminal (s : Console) : Terminal where
  columns := s.videoNumColumns
  lines := s.videoNumLines
  grid := s.grid
  blank := s.videoEraseChar
  attr := s.attr
  x := s.x
  y := s.y
  top := s.top
  bottom := s.bottom
  savedX := s.savedX
  savedY := s.savedY

theorem shows_terminal {s : Console} (h : s.Ok) (heven : s.videoNumColumns % 2 = 0) : Shows s s.state s.terminal := by
  constructor
  case ok => exact h
  case even => exact heven
  case lines => exact h.lines
  case cells => exact fun r hr c hc => rfl
  all_goals rfl

end Linux011.Chr
