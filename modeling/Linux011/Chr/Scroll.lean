import Linux011.Chr.Cursor

/-!
# Scrolling by hardware

`scrup` of the EGA card moves the window over the memory, and now and then takes it back to the start; the
plain one copies the lines. `Scrolled` is what both do to the window.
-/

namespace Linux011.Chr

namespace Screen

theorem ram_store (a b : Nat) (w : BitVec 16) (s : Screen) : (s.store a w).ram b = if b = a then w else s.ram b :=
  Function.update_apply s.ram a w b

theorem ram_move (edi esi b : Nat) (s : Screen) : (s.move edi esi).ram b =
    if b = edi + 2 then s.ram (esi + 2) else if b = edi then s.ram esi else s.ram b := by
  unfold move
  rw [ram_store, ram_store]

/-- The words from `edi` on are filled. -/
theorem ram_stosw (w : BitVec 16) (ecx edi a : Nat) (s : Screen) : (s.stosw w ecx edi).ram a =
    if edi ≤ a ∧ a < edi + 2 * ecx ∧ (a - edi) % 2 = 0 then w else s.ram a := by
  induction ecx generalizing edi s with
  | zero =>
    rw [if_neg (by omega)]
    rfl
  | succ ecx ih =>
    rw [stosw, ih, ram_store]
    by_cases hfirst : a = edi
    · rw [if_neg (by omega), if_pos hfirst, if_pos (by omega)]
    · rw [if_neg hfirst]
      by_cases hrest : edi + 2 ≤ a ∧ a < edi + 2 + 2 * ecx ∧ (a - (edi + 2)) % 2 = 0
      · rw [if_pos hrest, if_pos (by omega)]
      · rw [if_neg hrest, if_neg (by omega)]

/-- A copy to lower addresses reads no word that it has already written. -/
theorem ram_movsl {edi esi : Nat} (h : edi ≤ esi) (ecx a : Nat) (s : Screen) : (s.movsl ecx edi esi).2.ram a =
    if edi ≤ a ∧ a < edi + 4 * ecx ∧ (a - edi) % 2 = 0 then s.ram (esi + (a - edi)) else s.ram a := by
  induction ecx generalizing edi esi s with
  | zero =>
    rw [if_neg (by omega)]
    rfl
  | succ ecx ih =>
    rw [movsl, ih (by omega), ram_move, ram_move]
    by_cases hrest : edi + 4 ≤ a ∧ a < edi + 4 + 4 * ecx ∧ (a - (edi + 4)) % 2 = 0
    · rw [if_pos hrest, if_neg (by omega), if_neg (by omega), if_pos (by omega)]
      congr 1
      omega
    · rw [if_neg hrest]
      by_cases hsecond : a = edi + 2
      · rw [if_pos hsecond, if_pos (by omega)]
        congr 1
        omega
      · rw [if_neg hsecond]
        by_cases hfirst : a = edi
        · rw [if_pos hfirst, if_pos (by omega)]
          congr 1
          omega
        · rw [if_neg hfirst, if_neg (by omega)]

theorem movsl_end (ecx edi esi : Nat) (s : Screen) : (s.movsl ecx edi esi).1 = edi + 4 * ecx := by
  induction ecx generalizing edi esi s with
  | zero => rfl
  | succ ecx ih =>
    rw [movsl, ih]
    omega

end Screen

namespace Console

/-! ## The window -/

/-- The word `k` of the window. -/
def cell (s : Console) (k : Nat) : BitVec 16 := s.screen.ram (s.origin + 2 * k)

/-- The lines of the window have moved up by one, and the last one is erased. -/
structure Scrolled (s s' : Console) : Prop where
  cells : ∀ k < 25 * s.videoNumColumns,
    s'.cell k = if k < 24 * s.videoNumColumns then s.cell (k + s.videoNumColumns) else s.videoEraseChar
  x : s'.x = s.x
  y : s'.y = s.y
  columns : s'.videoNumColumns = s.videoNumColumns
  erase : s'.videoEraseChar = s.videoEraseChar

/-- The scrolling region is the whole screen. -/
def Full (s : Console) : Prop := s.top = 0 ∧ s.bottom = s.videoNumLines

variable {s t s' t' : Console}

/-- Lines are copied down in the memory to `edi`, and the line behind them is erased. -/
theorem scrolled_copy (h : s.Ok) {edi : Nat} (hedi : edi ≤ s.origin + s.videoSizeRow)
    (hscreen : s'.screen =
      (s.screen.movsl (24 * s.videoNumColumns / 2) edi (s.origin + s.videoSizeRow)).2.stosw s.videoEraseChar
        s.videoNumColumns (s.screen.movsl (24 * s.videoNumColumns / 2) edi (s.origin + s.videoSizeRow)).1)
    (horigin : s'.origin = edi) (k : Nat) (hk : k < 25 * s.videoNumColumns) :
    s'.cell k = if k < 24 * s.videoNumColumns then s.cell (k + s.videoNumColumns) else s.videoEraseChar := by
  have hrow := h.row
  unfold cell
  rw [hscreen, horigin, Screen.ram_stosw, Screen.movsl_end, Screen.ram_movsl hedi]
  by_cases hlast : k < 24 * s.videoNumColumns
  · rw [if_neg (by omega), if_pos (by omega), if_pos hlast]
    congr 1
    omega
  · rw [if_pos (by omega), if_neg hlast]

theorem Ok.scrolled_scrupLines (h : s.Ok) (hfull : s.Full) : Scrolled s s.scrupLines := by
  obtain ⟨htop, hbottom⟩ := hfull
  refine ⟨scrolled_copy h (Nat.le_add_right _ _) ?_ rfl, rfl, rfl, rfl, rfl⟩
  have hlines : sub32 (sub32 s.bottom s.top) 1 = 24 := by
    rw [hbottom, htop, h.lines]
    rfl
  unfold Console.scrupLines
  simp only
  rw [hlines, htop, Nat.mul_zero, Nat.add_zero, Nat.zero_add, Nat.mul_one]

/-- Either branch of `scrup` scrolls the window. -/
theorem Ok.scrolled (h : s.Ok) (hfull : s.Full) : Scrolled s s.scrup := by
  obtain ⟨hend, -, hmin, hmax, -⟩ := h.numbers
  have hstart := h.start
  have hfits := h.end_le
  have hrow := h.row
  obtain ⟨-, -, hlimit⟩ := h.mem
  unfold Console.scrup
  split
  · rw [if_pos (show s.top = 0 ∧ s.bottom = s.videoNumLines from hfull)]
    simp only
    split
    · -- the window goes back to the start of the memory
      have hlines : sub32 s.videoNumLines 1 = 24 := by
        rw [h.lines]
        rfl
      refine ⟨scrolled_copy h (show s.videoMemStart ≤ _ by omega) ?_ rfl, rfl, rfl, rfl, rfl⟩
      unfold scrupWrap
      simp only
      rw [hlines]
    · next hover =>
      -- the line that comes into the window is erased
      have hlast : sub32 (s.scrEnd + s.videoSizeRow) s.videoSizeRow = s.scrEnd :=
        (sub32_of_le (by omega) (by omega)).trans (Nat.add_sub_cancel ..)
      refine ⟨fun k hk => ?_, rfl, rfl, rfl, rfl⟩
      unfold cell
      simp only
      rw [hlast, Screen.ram_stosw]
      by_cases hin : k < 24 * s.videoNumColumns
      · rw [if_neg (by omega), if_pos hin]
        congr 1
        omega
      · rw [if_pos (by omega), if_neg hin]
  · exact h.scrolled_scrupLines hfull

/-- The region and the card stay. -/
theorem scrup_stays (s : Console) : s.scrup.top = s.top ∧ s.scrup.bottom = s.bottom ∧
    s.scrup.videoNumLines = s.videoNumLines ∧ s.scrup.videoType = s.videoType := by
  unfold Console.scrup
  split
  · split
    · simp only
      split
      · exact ⟨rfl, rfl, rfl, rfl⟩
      · exact ⟨rfl, rfl, rfl, rfl⟩
    · exact ⟨rfl, rfl, rfl, rfl⟩
  · exact ⟨rfl, rfl, rfl, rfl⟩

theorem Full.scrup (h : s.Full) : s.scrup.Full := by
  obtain ⟨htop, hbottom, hlines, -⟩ := scrup_stays s
  unfold Full
  rw [htop, hbottom, hlines]
  exact h

/-! ## Two cards -/

/-- Two consoles with the same picture. -/
structure Alike (s t : Console) : Prop where
  cells : ∀ k < 25 * s.videoNumColumns, s.cell k = t.cell k
  x : s.x = t.x
  y : s.y = t.y
  columns : s.videoNumColumns = t.videoNumColumns
  erase : s.videoEraseChar = t.videoEraseChar

theorem Alike.scrolled (h : Alike s t) (hs : Scrolled s s') (ht : Scrolled t t') : Alike s' t' := by
  have hcolumns := h.columns
  refine ⟨fun k hk => ?_, ?_, ?_, ?_, ?_⟩
  · rw [hs.columns] at hk
    rw [hs.cells k hk, ht.cells k (by omega), ← hcolumns, ← h.erase]
    split
    · exact h.cells _ (by omega)
    · rfl
  · rw [hs.x, ht.x, h.x]
  · rw [hs.y, ht.y, h.y]
  · rw [hs.columns, ht.columns, hcolumns]
  · rw [hs.erase, ht.erase, h.erase]

/-- Any number of scrolls keeps the pictures alike. -/
theorem Alike.iterate (h : Alike s t) (hs : s.Ok) (ht : t.Ok) (hfull : s.Full) (hfull' : t.Full) (n : Nat) :
    Alike (scrup^[n] s) (scrup^[n] t) ∧ (scrup^[n] s).Ok ∧ (scrup^[n] t).Ok := by
  induction n generalizing s t with
  | zero => exact ⟨h, hs, ht⟩
  | succ n ih =>
    rw [Function.iterate_succ_apply, Function.iterate_succ_apply]
    exact ih (h.scrolled (hs.scrolled hfull) (ht.scrolled hfull')) hs.scrup ht.scrup hfull.scrup hfull'.scrup

theorem iterate_videoType (n : Nat) (s : Console) : (scrup^[n] s).videoType = s.videoType := by
  induction n generalizing s with
  | zero => rfl
  | succ n ih => rw [Function.iterate_succ_apply, ih, (scrup_stays s).2.2.2]

theorem iterate_columns (n : Nat) (s : Console) : (scrup^[n] s).videoNumColumns = s.videoNumColumns := by
  induction n generalizing s with
  | zero => rfl
  | succ n ih => rw [Function.iterate_succ_apply, ih, (scrup_x s).2]

/-- However often the screen is scrolled: the card that moves the window shows the same in it as one that does not,
and the cursor is at the same place. -/
theorem scrup_hardware (n : Nat) (s : Console) (plain : VideoType) (h : s.Ok)
    (hfull : s.top = 0 ∧ s.bottom = s.videoNumLines) (hcard : s.videoType = .egac ∨ s.videoType = .egam)
    (hplain : plain ≠ .egac ∧ plain ≠ .egam) :
    let hard := scrup^[n] s
    let soft := scrup^[n] { s with videoType := plain }
    (hard.videoType = .egac ∨ hard.videoType = .egam) ∧ (soft.videoType ≠ .egac ∧ soft.videoType ≠ .egam) ∧
      (∀ k < s.videoNumLines * s.videoNumColumns, hard.cell k = soft.cell k) ∧ hard.x = soft.x ∧ hard.y = soft.y ∧
      hard.pos = hard.origin + hard.y * hard.videoSizeRow + 2 * hard.x ∧
      soft.pos = soft.origin + soft.y * soft.videoSizeRow + 2 * soft.x ∧ hard.videoSizeRow = soft.videoSizeRow := by
  have hok : Ok { s with videoType := plain } := { h with }
  have hstart : Alike s { s with videoType := plain } := ⟨fun _ _ => rfl, rfl, rfl, rfl, rfl⟩
  obtain ⟨halike, hhard, hsoft⟩ := hstart.iterate h hok hfull hfull n
  have hcolumns : (scrup^[n] s).videoNumColumns = s.videoNumColumns := iterate_columns n s
  refine ⟨?_, ?_, fun k hk => ?_, halike.x, halike.y, hhard.pos_eq, hsoft.pos_eq, ?_⟩
  · rw [iterate_videoType]
    exact hcard
  · rw [iterate_videoType]
    exact hplain
  · apply halike.cells
    rw [hcolumns, ← h.lines]
    exact hk
  · rw [hhard.row, hsoft.row, halike.columns]

/-- A new screen of a color card, after 300 scrolls. -/
theorem scrup_hardware_ega :
    let s := conInit ⟨0, 24, 0x5003, 0⟩ fun _ => 0x0720
    ∀ k < 2000, (scrup^[300] s).cell k = (scrup^[300] { s with videoType := .cga }).cell k := by
  have hok : (conInit ⟨0, 24, 0x5003, 0⟩ fun _ => 0x0720).Ok :=
    conInit_ok ⟨by decide, by decide, by decide, by decide⟩ fun _ => 0x0720
  exact (scrup_hardware 300 _ .cga hok ⟨rfl, rfl⟩ (Or.inl rfl) (by decide)).2.2.1

end Console

end Linux011.Chr
