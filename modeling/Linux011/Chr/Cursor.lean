import Mathlib.Tactic.Ring
import Linux011.Chr.Console

/-!
# The cursor and the stores of the console

`Ok` is what every function of the console keeps: the position that they all move step by step is the one
of `x` and `y`, the window of the card lies in its memory, and so does every store.
-/

namespace Linux011.Chr

namespace Console

/-- The cursor may stand one column past the edge. -/
structure Ok (s : Console) : Prop where
  columns : 8 ≤ s.videoNumColumns ∧ s.videoNumColumns < 2 ^ 8
  row : s.videoSizeRow = s.videoNumColumns * 2
  lines : s.videoNumLines = 25
  mem : 4 ≤ s.videoMemStart ∧ s.videoMemStart + 25 * s.videoSizeRow ≤ s.videoMemEnd ∧ s.videoMemEnd < 2 ^ 31
  start : s.videoMemStart ≤ s.origin
  x_le : s.x ≤ s.videoNumColumns
  y_lt : s.y < s.videoNumLines
  pos_eq : s.pos = s.origin + s.y * s.videoSizeRow + 2 * s.x
  end_eq : s.scrEnd = s.origin + s.videoNumLines * s.videoSizeRow
  end_le : s.scrEnd ≤ s.videoMemEnd
  top_lt : s.top < s.bottom
  bottom_le : s.bottom ≤ s.videoNumLines
  npar_lt : s.npar < nPar
  stores : s.screen.In s.videoMemStart s.videoMemEnd

variable {s : Console}

/-- The end of a line of the screen. -/
theorem Ok.line (h : s.Ok) {k : Nat} (hk : k < 25) :
    (k + 1) * s.videoSizeRow = k * s.videoSizeRow + s.videoSizeRow ∧
      (k + 1) * s.videoSizeRow ≤ 25 * s.videoSizeRow :=
  ⟨Nat.succ_mul k _, Nat.mul_le_mul_right _ hk⟩

/-- The numbers of a state, with the nonlinear terms bounded. -/
theorem Ok.numbers (h : s.Ok) :
    s.scrEnd = s.origin + 25 * s.videoSizeRow ∧ s.y < 25 ∧ 16 ≤ s.videoSizeRow ∧ s.videoSizeRow < 512 ∧
      s.y * s.videoSizeRow + s.videoSizeRow ≤ 25 * s.videoSizeRow := by
  have hy : s.y < 25 := h.lines ▸ h.y_lt
  obtain ⟨heq, hle⟩ := h.line hy
  have hend := h.end_eq
  rw [h.lines] at hend
  obtain ⟨hmin, hmax⟩ := h.columns
  have hrow := h.row
  exact ⟨hend, hy, by omega, by omega, heq ▸ hle⟩

/-- The cursor moves only within the screen. -/
theorem Ok.gotoxy (h : s.Ok) (newX newY : Nat) : (s.gotoxy newX newY).Ok := by
  unfold Console.gotoxy
  split
  · exact h
  · next hin =>
    obtain ⟨hx, hy⟩ := not_or.mp hin
    refine { h with x_le := Nat.not_lt.mp hx, y_lt := Nat.not_le.mp hy, pos_eq := ?_ }
    show s.origin + newY * s.videoSizeRow + newX * 2 = _
    rw [Nat.mul_comm newX]

/-! ## Scrolling -/

/-- The bytes that are copied are those of the lines, or two less if an odd number of words is. -/
theorem Ok.copied (h : s.Ok) (lines : Nat) :
    4 * (lines * s.videoNumColumns / 2) ≤ lines * s.videoSizeRow := by
  rw [h.row, ← Nat.mul_assoc]
  omega

/-- The scrolling region. -/
theorem Ok.region (h : s.Ok) : ∃ lines, lines ≤ 25 ∧ sub32 (sub32 s.bottom s.top) 1 = lines ∧
    s.videoSizeRow * s.top + lines * s.videoSizeRow + s.videoSizeRow = s.videoSizeRow * s.bottom ∧
    s.videoSizeRow * s.bottom ≤ 25 * s.videoSizeRow := by
  have htop := h.top_lt
  have hbottom := h.lines ▸ h.bottom_le
  obtain ⟨lines, hlines⟩ : ∃ lines, s.bottom = s.top + lines + 1 := ⟨s.bottom - s.top - 1, by omega⟩
  refine ⟨lines, by omega, ?_, ?_, ?_⟩
  · rw [sub32_of_le (Nat.le_of_lt htop) (by omega), sub32_of_le (by omega) (by omega)]
    omega
  · rw [hlines]
    ring
  · rw [Nat.mul_comm]
    exact Nat.mul_le_mul_right _ hbottom

theorem Ok.scrupLines (h : s.Ok) : s.scrupLines.Ok := by
  obtain ⟨hend, -⟩ := h.numbers
  obtain ⟨lines, hlines, hcount, hsplit, hbottom⟩ := h.region
  have hcopied := h.copied lines
  have hstart := h.start
  have hfits := h.end_le
  have hrow := h.row
  unfold Console.scrupLines
  rw [hcount]
  obtain ⟨hedi, hin⟩ := h.stores.movsl (s.origin + s.videoSizeRow * (s.top + 1))
    (show s.videoMemStart ≤ s.origin + s.videoSizeRow * s.top by omega)
    (show s.origin + s.videoSizeRow * s.top + 4 * (lines * s.videoNumColumns / 2) ≤ s.videoMemEnd by omega)
  refine { h with stores := hin.stosw ?_ ?_ }
  · rw [hedi]
    omega
  · rw [hedi]
    omega

theorem Ok.scrdown (h : s.Ok) : s.scrdown.Ok := by
  obtain ⟨hend, hy, hmin, hmax, -⟩ := h.numbers
  obtain ⟨lines, hlines, hcount, hsplit, hbottom⟩ := h.region
  have hcopied := h.copied lines
  have hstart := h.start
  have hfits := h.end_le
  have hrow := h.row
  obtain ⟨hfour, -, hlimit⟩ := h.mem
  have hedge : sub32 (s.origin + s.videoSizeRow * s.bottom) 4 = s.origin + s.videoSizeRow * s.bottom - 4 :=
    sub32_of_le (by omega) (by omega)
  unfold Console.scrdown
  rw [hcount, hedge]
  obtain ⟨hedi, hin⟩ := h.stores.movslStd (sub32 (s.origin + s.videoSizeRow * sub32 s.bottom 1) 4)
    (show s.videoMemStart + 4 * (lines * s.videoNumColumns / 2) ≤ s.origin + s.videoSizeRow * s.bottom - 4 + 4 by
      omega)
    (by omega) (by omega) hfour
  refine { h with stores := hin.stoswStd ?_ ?_ (by omega) }
  · rw [hedi]
    omega
  · rw [hedi]
    omega

/-- The cursor is in the window, and the line behind the window has an address. -/
theorem Ok.window (h : s.Ok) : s.origin ≤ s.scrEnd ∧ s.pos ≤ s.scrEnd ∧ s.scrEnd + s.videoSizeRow < 2 ^ 32 := by
  obtain ⟨hend, -, -, hmax, hyrow⟩ := h.numbers
  have hrow := h.row
  have hpos := h.pos_eq
  have hx := h.x_le
  have hlimit := h.end_le.trans_lt h.mem.2.2
  exact ⟨by omega, by omega, by omega⟩

/-- The whole screen fits at the start of the memory. -/
theorem Ok.wraps (h : s.Ok) : s.videoMemStart + 4 * (24 * s.videoNumColumns / 2) ≤ s.videoMemEnd ∧
    s.videoMemStart + 4 * (24 * s.videoNumColumns / 2) + 2 * s.videoNumColumns ≤ s.videoMemEnd := by
  have hcopied := h.copied 24
  have hfit := h.mem.2.1
  have hrow := h.row
  exact ⟨by omega, by omega⟩

/-- The hardware scrolls a full screen by moving the window, and takes it back to the start of the memory
when it gets over the end. -/
theorem Ok.scrup (h : s.Ok) : s.scrup.Ok := by
  obtain ⟨horigin, hposle, hupper⟩ := h.window
  have hstart := h.start
  have hpos := h.pos_eq
  have hend := h.end_eq
  unfold Console.scrup
  split
  · split
    · simp only
      split
      · next hover =>
        obtain ⟨d, hd⟩ := Nat.exists_eq_add_of_le hstart
        have hsub : sub32 (s.origin + s.videoSizeRow) s.videoMemStart = d + s.videoSizeRow := by
          rw [sub32_of_le (by omega) (by omega), hd, Nat.add_assoc, Nat.add_sub_cancel_left]
        have hlines : sub32 s.videoNumLines 1 * s.videoNumColumns / 2 = 24 * s.videoNumColumns / 2 := by
          rw [h.lines]
          rfl
        unfold scrupWrap
        simp only [hlines, hsub]
        rw [sub32_of_le (a := s.scrEnd + s.videoSizeRow) (by omega) hupper,
          sub32_of_le (a := s.pos + s.videoSizeRow) (by omega) (by omega), Nat.add_sub_add_right, Nat.add_sub_add_right]
        obtain ⟨hroom, hall⟩ := h.wraps
        obtain ⟨hedi, hin⟩ := h.stores.movsl (s.origin + s.videoSizeRow) (Nat.le_refl s.videoMemStart) hroom
        have hfit := h.mem.2.1
        rw [h.lines] at hend
        refine { h with
          start := Nat.le_refl _
          pos_eq := ?_
          end_eq := ?_
          end_le := ?_
          stores := hin.stosw ?_ ?_ }
        · show s.pos - d = s.videoMemStart + s.y * s.videoSizeRow + 2 * s.x
          omega
        · show s.scrEnd - d = s.videoMemStart + s.videoNumLines * s.videoSizeRow
          rw [h.lines]
          omega
        · show s.scrEnd - d ≤ s.videoMemEnd
          omega
        · rw [hedi]
          exact Nat.le_add_right ..
        · rw [hedi]
          exact hall
      · next hover =>
        have hover : s.scrEnd + s.videoSizeRow ≤ s.videoMemEnd := Nat.not_lt.mp hover
        have hlast : sub32 (s.scrEnd + s.videoSizeRow) s.videoSizeRow = s.scrEnd :=
          (sub32_of_le (Nat.le_add_left ..) hupper).trans (Nat.add_sub_cancel ..)
        have hrow := h.row
        rw [hlast]
        refine { h with
          start := ?_
          pos_eq := ?_
          end_eq := ?_
          end_le := hover
          stores := h.stores.stosw (hstart.trans horigin) (by omega) }
        · exact hstart.trans (Nat.le_add_right ..)
        · show s.pos + s.videoSizeRow = s.origin + s.videoSizeRow + s.y * s.videoSizeRow + 2 * s.x
          omega
        · show s.scrEnd + s.videoSizeRow = s.origin + s.videoSizeRow + s.videoNumLines * s.videoSizeRow
          omega
    · exact h.scrupLines
  · exact h.scrupLines

/-! ## Moves -/

/-- Scrolling does not move the cursor on the screen. -/
theorem scrup_x (s : Console) : s.scrup.x = s.x ∧ s.scrup.videoNumColumns = s.videoNumColumns := by
  unfold Console.scrup
  split
  · split
    · simp only
      split
      · exact ⟨rfl, rfl⟩
      · exact ⟨rfl, rfl⟩
    · exact ⟨rfl, rfl⟩
  · exact ⟨rfl, rfl⟩

theorem lf_x (s : Console) : s.lf.x = s.x ∧ s.lf.videoNumColumns = s.videoNumColumns := by
  unfold Console.lf
  split
  · exact ⟨rfl, rfl⟩
  · exact scrup_x s

theorem Ok.lf (h : s.Ok) : s.lf.Ok := by
  have hpos := h.pos_eq
  have hbottom := h.bottom_le
  unfold Console.lf
  split
  · next hy =>
    refine { h with y_lt := Nat.lt_of_lt_of_le hy hbottom, pos_eq := ?_ }
    show s.pos + s.videoSizeRow = s.origin + (s.y + 1) * s.videoSizeRow + 2 * s.x
    rw [Nat.succ_mul]
    omega
  · exact h.scrup

theorem Ok.ri (h : s.Ok) : s.ri.Ok := by
  obtain ⟨hend, hy, hmin, hmax, hyrow⟩ := h.numbers
  have hpos := h.pos_eq
  have hx := h.x_le
  have hfits := h.end_le
  have hrow := h.row
  obtain ⟨-, -, hlimit⟩ := h.mem
  unfold Console.ri
  split
  · next htop =>
    obtain ⟨k, hk⟩ : ∃ k, s.y = k + 1 := ⟨s.y - 1, by omega⟩
    rw [hk, Nat.succ_mul] at hpos hyrow
    rw [sub32_of_le (by omega) (by omega)]
    refine { h with y_lt := Nat.lt_of_le_of_lt (Nat.sub_le _ _) h.y_lt, pos_eq := ?_ }
    show s.pos - s.videoSizeRow = s.origin + (s.y - 1) * s.videoSizeRow + 2 * s.x
    rw [hk, Nat.add_sub_cancel]
    omega
  · exact h.scrdown

/-- The cursor goes back in its line. -/
theorem Ok.back (h : s.Ok) {k : Nat} (hk : k ≤ s.x) :
    sub32 s.pos (k * 2) = s.origin + s.y * s.videoSizeRow + 2 * (s.x - k) ∧
      Ok { s with pos := sub32 s.pos (k * 2), x := s.x - k } := by
  obtain ⟨hend, -, hmin, hmax, hyrow⟩ := h.numbers
  have hpos := h.pos_eq
  have hx := h.x_le
  have hfits := h.end_le
  have hrow := h.row
  obtain ⟨-, -, hlimit⟩ := h.mem
  have hback : sub32 s.pos (k * 2) = s.origin + s.y * s.videoSizeRow + 2 * (s.x - k) := by
    rw [sub32_of_le (by omega) (by omega)]
    omega
  exact ⟨hback, { h with x_le := Nat.le_trans (Nat.sub_le _ _) hx, pos_eq := hback }⟩

/-- A word before the edge of the screen. -/
theorem Ok.store (h : s.Ok) (hx : s.x < s.videoNumColumns) (w : BitVec 16) :
    Ok { s with screen := s.screen.store s.pos w } := by
  obtain ⟨hend, -, -, -, hyrow⟩ := h.numbers
  have hpos := h.pos_eq
  have hstart := h.start
  have hfits := h.end_le
  have hrow := h.row
  exact { h with stores := h.stores.store (by omega) (by omega) }

theorem Ok.cr (h : s.Ok) : s.cr.Ok := by
  have hback := (h.back (Nat.le_refl s.x)).2
  rwa [Nat.sub_self] at hback

theorem Ok.del (h : s.Ok) : s.del.Ok := by
  unfold Console.del
  split
  · next hx =>
    have hback := (h.back (Nat.one_le_iff_ne_zero.mpr hx)).2
    refine hback.store ?_ s.videoEraseChar
    exact Nat.lt_of_lt_of_le (Nat.sub_lt (Nat.pos_of_ne_zero hx) Nat.one_pos) h.x_le
  · exact h

/-- A cursor past the edge belongs to the next line. -/
theorem Ok.wrapped (h : s.Ok) {c : Nat} (hc : s.x + c ≤ 2 * s.videoNumColumns) (hover : s.videoNumColumns ≤ s.x + c) :
    Ok { s with
      x := s.x + c - s.videoNumColumns
      pos := sub32 (s.pos + c * 2) s.videoSizeRow } := by
  obtain ⟨hend, -, hmin, hmax, hyrow⟩ := h.numbers
  have hpos := h.pos_eq
  have hx := h.x_le
  have hfits := h.end_le
  have hrow := h.row
  obtain ⟨-, -, hlimit⟩ := h.mem
  refine { h with x_le := ?_, pos_eq := ?_ }
  · show s.x + c - s.videoNumColumns ≤ s.videoNumColumns
    omega
  · show sub32 (s.pos + c * 2) s.videoSizeRow =
      s.origin + s.y * s.videoSizeRow + 2 * (s.x + c - s.videoNumColumns)
    rw [sub32_of_le (by omega) (by omega)]
    omega

theorem Ok.wrap (h : s.Ok) {c : Nat} (hc : s.x + c ≤ 2 * s.videoNumColumns) (hover : s.videoNumColumns ≤ s.x + c) :
    (Console.lf { s with
      x := s.x + c - s.videoNumColumns
      pos := sub32 (s.pos + c * 2) s.videoSizeRow }).Ok := (h.wrapped hc hover).lf

theorem Ok.tab (h : s.Ok) : s.tab.Ok := by
  obtain ⟨hmin, -⟩ := h.columns
  have hx := h.x_le
  have hpos := h.pos_eq
  unfold Console.tab
  simp only
  split
  · next hover => exact h.wrap (by omega) (Nat.le_of_lt hover)
  · next hin =>
    refine { h with x_le := Nat.not_lt.mp hin, pos_eq := ?_ }
    show s.pos + (8 - s.x % 8) * 2 = s.origin + s.y * s.videoSizeRow + 2 * (s.x + (8 - s.x % 8))
    omega

/-! ## Erasing, inserting, deleting -/

/-- Words of the screen are erased. -/
theorem Ok.erase (h : s.Ok) {count start : Nat} (hstart : s.origin ≤ start)
    (hend : start + 2 * count ≤ s.scrEnd) : (s.erase count start).Ok := by
  have horigin := h.start
  have hfits := h.end_le
  exact { h with stores := h.stores.stosw (by omega) (by omega) }

theorem Ok.csiJ (h : s.Ok) (par : Nat) : (s.csiJ par).Ok := by
  obtain ⟨hend, -, -, -, hyrow⟩ := h.numbers
  have hpos := h.pos_eq
  have hx := h.x_le
  have hfits := h.end_le
  have hrow := h.row
  obtain ⟨-, -, hlimit⟩ := h.mem
  unfold Console.csiJ
  split
  · rw [sub32_of_le (by omega) (by omega)]
    exact h.erase (by omega) (by omega)
  · rw [sub32_of_le (by omega) (by omega)]
    exact h.erase (Nat.le_refl _) (by omega)
  · rw [h.lines]
    exact h.erase (Nat.le_refl _) (by omega)
  · exact h

theorem Ok.csiK (h : s.Ok) (par : Nat) : (s.csiK par).Ok := by
  obtain ⟨hend, -, -, hmax, hyrow⟩ := h.numbers
  have hpos := h.pos_eq
  have hx := h.x_le
  have hrow := h.row
  obtain ⟨hback, -⟩ := h.back (Nat.le_refl s.x)
  unfold Console.csiK
  split
  · split
    · exact h
    · rw [sub32_of_le (by omega) (by omega)]
      exact h.erase (by omega) (by omega)
  · rw [hback]
    split
    · exact h.erase (by omega) (by omega)
    · exact h.erase (by omega) (by omega)
  · rw [hback]
    exact h.erase (by omega) (by omega)
  · exact h

theorem Ok.insertChar (h : s.Ok) : s.insertChar.Ok := by
  obtain ⟨hend, -, -, -, hyrow⟩ := h.numbers
  have hpos := h.pos_eq
  have hx := h.x_le
  have hstart := h.start
  have hfits := h.end_le
  have hrow := h.row
  exact { h with stores := h.stores.insertLoop (by omega) (by omega) }

theorem Ok.deleteChar (h : s.Ok) : s.deleteChar.Ok := by
  obtain ⟨hend, -, -, -, hyrow⟩ := h.numbers
  have hpos := h.pos_eq
  have hstart := h.start
  have hfits := h.end_le
  have hrow := h.row
  unfold Console.deleteChar
  split
  · exact h
  · exact { h with stores := h.stores.deleteLoop (by omega) (by omega) }

/-- The lines from the cursor on are a scrolling region. -/
theorem Ok.fromCursor (h : s.Ok) : Ok { s with top := s.y, bottom := s.videoNumLines } :=
  { h with top_lt := h.y_lt, bottom_le := Nat.le_refl _ }

theorem Ok.insertLine (h : s.Ok) : s.insertLine.Ok :=
  { h.fromCursor.scrdown with top_lt := h.top_lt, bottom_le := h.bottom_le }

theorem Ok.deleteLine (h : s.Ok) : s.deleteLine.Ok := by
  have hup := h.fromCursor.scrup
  refine { hup with top_lt := h.top_lt, bottom_le := ?_ }
  have hlines : (Console.scrup { s with top := s.y, bottom := s.videoNumLines }).videoNumLines = 25 := hup.lines
  show s.bottom ≤ (Console.scrup { s with top := s.y, bottom := s.videoNumLines }).videoNumLines
  rw [hlines, ← h.lines]
  exact h.bottom_le

/-- What is done a number of times. -/
theorem Ok.iterate {f : Console → Console} (hf : ∀ s, s.Ok → (f s).Ok) (h : s.Ok) (n : Nat) : (f^[n] s).Ok := by
  induction n generalizing s with
  | zero => exact h
  | succ n ih =>
    rw [Function.iterate_succ_apply]
    exact ih (hf s h)

/-! ## con_write -/

theorem Ok.setPar (h : s.Ok) (i v : Nat) : (s.setPar i v).Ok := { h with }

theorem Ok.atLeastOne (h : s.Ok) (i : Nat) : (s.atLeastOne i).Ok := by
  unfold Console.atLeastOne
  split
  · exact h.setPar i 1
  · exact h

theorem Ok.fromZero (h : s.Ok) (i : Nat) : (s.fromZero i).Ok := by
  unfold Console.fromZero
  split
  · exact h.setPar i _
  · exact h

theorem Ok.setState (h : s.Ok) (state : Nat) : Ok { s with state } := { h with }

theorem Ok.print (h : s.Ok) (c : Nat) : (s.print c).Ok := by
  have hmin := h.columns.1
  have hx := h.x_le
  -- In either case the cursor stands before the edge when the character is stored.
  have hafter : ∀ s : Console, s.Ok → s.x < s.videoNumColumns → Ok { s with
      screen := s.screen.store s.pos (s.attr ++ BitVec.ofNat 8 c)
      pos := s.pos + 2
      x := s.x + 1 } := by
    intro s h hx
    have hpos := h.pos_eq
    refine { h.store hx (s.attr ++ BitVec.ofNat 8 c) with x_le := hx, pos_eq := ?_ }
    show s.pos + 2 = s.origin + s.y * s.videoSizeRow + 2 * (s.x + 1)
    omega
  unfold Console.print
  simp only
  split
  · next hedge =>
    have hwrap := h.wrap (c := 0) (by omega) hedge
    apply hafter _ hwrap
    rw [(lf_x _).1, (lf_x _).2]
    show s.x - s.videoNumColumns < s.videoNumColumns
    omega
  · next hin => exact hafter s h (Nat.not_le.mp hin)

theorem Ok.case0 (h : s.Ok) (eraseChar c : Nat) : (s.case0 eraseChar c).Ok := by
  unfold Console.case0
  split
  · exact h.print c
  · split
    · exact h.setState 1
    · split
      · exact h.lf
      · split
        · exact h.cr
        · split
          · exact h.del
          · split
            · split
              · next hx => exact (h.back (Nat.one_le_iff_ne_zero.mpr hx)).2
              · exact h
            · split
              · exact h.tab
              · exact h

theorem Ok.case1 (h : s.Ok) (c : Nat) : (s.case1 c).Ok := by
  have h0 := h.setState 0
  unfold Console.case1
  simp only
  split
  · exact h.setState 2
  · split
    · exact h0.gotoxy _ _
    · split
      · exact h0.ri
      · split
        · exact h0.lf
        · split
          · exact h0
          · split
            · exact { h0 with }
            · split
              · exact h0.gotoxy _ _
              · exact h0

theorem Ok.case4 (h : s.Ok) (c : Nat) : (s.case4 c).Ok := by
  have h0 := h.setState 0
  have hone := h0.atLeastOne 0
  have hzero := h0.fromZero 0
  unfold Console.case4
  simp only
  split
  · exact hzero.gotoxy _ _
  · exact hone.gotoxy _ _
  · exact hone.gotoxy _ _
  · exact hone.gotoxy _ _
  · exact hone.gotoxy _ _
  · exact hone.gotoxy _ _
  · exact hone.gotoxy _ _
  · exact hone.gotoxy _ _
  · exact hone.gotoxy _ _
  · exact hzero.gotoxy _ _
  · exact (hzero.fromZero 1).gotoxy _ _
  · exact (hzero.fromZero 1).gotoxy _ _
  · exact h0.csiJ _
  · exact h0.csiK _
  · exact h0.iterate (fun _ h => h.insertLine) _
  · exact h0.iterate (fun _ h => h.deleteLine) _
  · exact h0.iterate (fun _ h => h.deleteChar) _
  · exact h0.iterate (fun _ h => h.insertChar) _
  · exact { h0 with }
  · -- The region is set only if it is one.
    have hregion : ∀ s : Console, s.Ok → Ok (if s.par 0 < s.par 1 ∧ s.par 1 ≤ s.videoNumLines then
        { s with top := s.par 0, bottom := s.par 1 } else s) := by
      intro s h
      split
      · next hpar => exact { h with top_lt := hpar.1, bottom_le := hpar.2 }
      · exact h
    apply hregion
    split
    · exact hzero.setPar 1 _
    · exact hzero
  · exact { h0 with }
  · exact h0.gotoxy _ _
  · split
    · exact hzero.gotoxy _ _
    · exact h0

theorem Ok.case3 (h : s.Ok) (c : Nat) : (s.case3 c).Ok := by
  unfold Console.case3
  split
  · next hmore => exact { h with npar_lt := Nat.add_lt_of_lt_sub hmore.2 }
  · split
    · exact h.setPar _ _
    · exact (h.setState 4).case4 c

theorem Ok.case2 (h : s.Ok) (c : Nat) : (s.case2 c).Ok := by
  have h2 : Ok { s with
      par := fun i => if i < nPar then 0 else s.par i
      npar := 0
      state := 3
      ques := decide (c = '?'.toNat) } := { h with npar_lt := show 0 < nPar by decide }
  unfold Console.case2
  simp only
  split
  · exact h2
  · exact h2.case3 c

/-- One character, in any state of a sequence. -/
theorem Ok.putc (h : s.Ok) (eraseChar : Nat) (c : UInt8) : (s.putc eraseChar c).Ok := by
  unfold Console.putc
  split
  · exact h.case0 eraseChar _
  · exact h.case1 _
  · exact h.case2 _
  · exact h.case3 _
  · exact h.case4 _
  · exact h

theorem Ok.conWrite (h : s.Ok) (eraseChar : Nat) (bytes : List UInt8) : (s.conWrite eraseChar bytes).Ok := by
  unfold Console.conWrite
  induction bytes generalizing s with
  | nil => exact h
  | cons c bytes ih => exact ih (h.putc eraseChar c)

end Console

/-! ## con_init -/

/-- The screen fits the memory of the card, and the cursor stands on it. -/
structure Orig.Sound (o : Orig) : Prop where
  columns : 8 ≤ o.columns
  fits : 25 * 2 * o.columns ≤ o.card.2.2.1 - o.card.2.1
  x_le : o.x ≤ o.columns
  y_lt : o.y < 25

theorem columns_lt (o : Orig) : o.columns < 2 ^ 8 := by
  unfold Orig.columns
  rw [BitVec.toNat_ushiftRight, Nat.shiftRight_eq_div_pow]
  have h := (o.videoMode &&& 0xff00#16).isLt
  omega

/-- The memories of the cards. -/
theorem card_mem (o : Orig) : 4 ≤ o.card.2.1 ∧ o.card.2.1 ≤ o.card.2.2.1 ∧ o.card.2.2.1 < 2 ^ 31 ∧
    o.card.2.2.2.length = 4 := by
  unfold Orig.card
  split
  · split
    · decide
    · decide
  · split
    · decide
    · decide

theorem describe_in {lo hi p : Nat} {desc : List Char} {s : Screen} (h : s.In lo hi) (hlo : lo ≤ p)
    (hhi : p + 2 * desc.length ≤ hi) : (Screen.describe desc p s).In lo hi := by
  induction desc generalizing p s with
  | nil => exact h
  | cons c desc ih =>
    rw [List.length_cons] at hhi
    apply ih (h.store hlo (by omega))
    · omega
    · omega

theorem conInit_ok {o : Orig} (h : o.Sound) (ram : Nat → BitVec 16) : (conInit o ram).Ok := by
  obtain ⟨hfour, hmem, hlimit, hlen⟩ := card_mem o
  have hmin := h.columns
  have hmax := columns_lt o
  have hfits := h.fits
  have hx := h.x_le
  have hy := h.y_lt
  rcases hcard : o.card with ⟨videoType, lo, hi, desc⟩
  rw [hcard] at hfour hmem hlimit hlen hfits
  simp only at hfour hmem hlimit hlen hfits
  have hin : ¬ (o.x > o.columns ∨ o.y ≥ 25) := by omega
  have hlabel : sub32 (lo + o.columns * 2) 8 = lo + o.columns * 2 - 8 := sub32_of_le (by omega) (by omega)
  have hlast : (Screen.describe desc (lo + o.columns * 2 - 8) ⟨ram, []⟩).In lo hi := by
    apply describe_in (fun a ha => absurd ha List.not_mem_nil)
    · omega
    · omega
  unfold conInit Console.gotoxy
  rw [hcard]
  simp only [if_neg hin, hlabel]
  constructor
  case columns => exact ⟨hmin, hmax⟩
  case row => rfl
  case lines => rfl
  case mem => exact ⟨hfour, show lo + 25 * (o.columns * 2) ≤ hi by omega, hlimit⟩
  case start => exact Nat.le_refl lo
  case x_le => exact hx
  case y_lt => exact hy
  case pos_eq => exact congrArg (lo + o.y * (o.columns * 2) + ·) (Nat.mul_comm o.x 2)
  case end_eq => rfl
  case end_le => exact (show lo + 25 * (o.columns * 2) ≤ hi by omega)
  case top_lt => exact (show 0 < 25 by decide)
  case bottom_le => exact Nat.le_refl 25
  case npar_lt => exact (show 0 < nPar by decide)
  case stores => exact hlast

/-- After any writes: the position is that of the cursor, the window lies in the memory of the card, and so
does every word that was ever stored. -/
theorem console_in_range {o : Orig} (h : o.Sound) (ram : Nat → BitVec 16) (calls : List (Nat × List UInt8)) :
    let s := calls.foldl (fun s call => s.conWrite call.1 call.2) (conInit o ram)
    s.x ≤ s.videoNumColumns ∧ s.y < s.videoNumLines ∧ s.pos = s.origin + s.y * s.videoSizeRow + 2 * s.x ∧
      s.scrEnd = s.origin + s.videoNumLines * s.videoSizeRow ∧ s.scrEnd ≤ s.videoMemEnd ∧
      s.top < s.bottom ∧ s.bottom ≤ s.videoNumLines ∧ s.npar < nPar ∧
      ∀ a ∈ s.screen.stores, s.videoMemStart ≤ a ∧ a + 2 ≤ s.videoMemEnd := by
  have hrun : ∀ s : Console, s.Ok → (calls.foldl (fun s call => s.conWrite call.1 call.2) s).Ok := by
    induction calls with
    | nil => exact fun s hs => hs
    | cons call calls ih => exact fun s hs => ih _ (hs.conWrite call.1 call.2)
  have hok := hrun _ (conInit_ok h ram)
  exact ⟨hok.x_le, hok.y_lt, hok.pos_eq, hok.end_eq, hok.end_le, hok.top_lt, hok.bottom_le, hok.npar_lt, hok.stores⟩

/-- A color card with 80 columns; the cursor starts in the last line. -/
theorem console_in_range_ega :
    let s := (conInit ⟨0, 24, 0x5003, 0⟩ fun _ => 0x0720).conWrite 127 [72, 105, 10]
    s.x ≤ s.videoNumColumns ∧ s.y < s.videoNumLines ∧ s.scrEnd ≤ s.videoMemEnd := by
  have hsound : Orig.Sound ⟨0, 24, 0x5003, 0⟩ := ⟨by decide, by decide, by decide, by decide⟩
  have hrange := console_in_range hsound (fun _ => 0x0720) [(127, [72, 105, 10])]
  exact ⟨hrange.1, hrange.2.1, hrange.2.2.2.2.1⟩

end Linux011.Chr
