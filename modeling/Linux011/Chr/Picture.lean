import Linux011.Chr.Scroll
import Linux011.Lib.Segment

/-!
# What the string instructions leave on the screen

The memory behind each of the loops of `kernel/chr_drv/console.c`, and then the cells of the window behind each
function that stores into it. Cells are numbered through all lines.
-/

namespace Linux011.Chr

namespace Screen

variable {edi esi : Nat}

/-- The `n` cells from cell `t` on are filled, downwards. -/
theorem ram_stoswStd (w : BitVec 16) (o t n k : Nat) (s : Screen) (hlo : 2 ≤ o) (hhi : o + 2 * (t + n) ≤ 2 ^ 32) :
    (s.stoswStd w n (o + 2 * (t + n) - 2)).ram (o + 2 * k) =
      if t ≤ k ∧ k < t + n then w else s.ram (o + 2 * k) := by
  induction n generalizing s with
  | zero =>
    rw [if_neg (by omega)]
    rfl
  | succ n ih =>
    have hedi : o + 2 * (t + (n + 1)) - 2 = o + 2 * (t + n) := by omega
    have hsub : sub32 (o + 2 * (t + n)) 2 = o + 2 * (t + n) - 2 := sub32_of_le (by omega) (by omega)
    rw [hedi, stoswStd, hsub, ih _ (by omega), ram_store]
    by_cases hlast : k = t + n
    · subst hlast
      rw [if_neg (by omega), if_pos rfl, if_pos (by omega)]
    · rw [if_neg (show o + 2 * k ≠ o + 2 * (t + n) by omega)]
      by_cases hrest : t ≤ k ∧ k < t + n
      · rw [if_pos hrest, if_pos ⟨hrest.1, Nat.lt_succ_of_lt hrest.2⟩]
      · rw [if_neg hrest, if_neg (by omega)]

theorem ram_move_cell (o p q k : Nat) (s : Screen) : (s.move (o + 2 * p) (o + 2 * q)).ram (o + 2 * k) =
    if k = p + 1 then s.ram (o + 2 * (q + 1)) else if k = p then s.ram (o + 2 * q) else s.ram (o + 2 * k) := by
  have hcell (p : Nat) : o + 2 * k = o + 2 * p ↔ k = p := by omega
  rw [ram_move]
  exact if_congr (hcell (p + 1)) rfl (if_congr (hcell p) rfl rfl)

/-- A copy to higher addresses, downwards, reads no word that it has already written. -/
theorem ram_movslStd (o t u ecx k : Nat) (s : Screen) (h : u ≤ t) (hlo : 4 ≤ o)
    (hhi : o + 2 * (t + 2 * ecx) ≤ 2 ^ 32) :
    (s.movslStd ecx (o + 2 * (t + 2 * ecx) - 4) (o + 2 * (u + 2 * ecx) - 4)).2.ram (o + 2 * k) =
      if t ≤ k ∧ k < t + 2 * ecx then s.ram (o + 2 * (k - (t - u))) else s.ram (o + 2 * k) := by
  induction ecx generalizing s with
  | zero =>
    rw [if_neg (by omega)]
    rfl
  | succ ecx ih =>
    have hstart (p : Nat) : o + 2 * (p + 2 * (ecx + 1)) - 4 = o + 2 * (p + 2 * ecx) := by omega
    have hedi : sub32 (o + 2 * (t + 2 * ecx)) 4 = o + 2 * (t + 2 * ecx) - 4 := sub32_of_le (by omega) (by omega)
    have hesi : sub32 (o + 2 * (u + 2 * ecx)) 4 = o + 2 * (u + 2 * ecx) - 4 := sub32_of_le (by omega) (by omega)
    rw [hstart, hstart, movslStd, hedi, hesi, ih _ (by omega), ram_move_cell, ram_move_cell]
    clear hstart hedi hesi ih hhi
    by_cases hrest : t ≤ k ∧ k < t + 2 * ecx
    · rw [if_pos hrest, if_neg (by omega), if_neg (by omega), if_pos (by omega)]
    · rw [if_neg hrest]
      by_cases hsecond : k = t + 2 * ecx + 1
      · rw [if_pos hsecond, if_pos (by omega)]
        exact congrArg s.ram (by omega)
      · rw [if_neg hsecond]
        by_cases hfirst : k = t + 2 * ecx
        · rw [if_pos hfirst, if_pos (by omega)]
          exact congrArg s.ram (by omega)
        · rw [if_neg hfirst, if_neg (by omega)]

/-- Each word goes to the place of the next one. -/
theorem ram_insertLoop (rounds : Nat) (old : BitVec 16) (p a : Nat) (s : Screen) :
    (s.insertLoop rounds old p).ram a =
      if p ≤ a ∧ a < p + 2 * rounds ∧ (a - p) % 2 = 0 then if a = p then old else s.ram (a - 2) else s.ram a := by
  induction rounds generalizing old p s with
  | zero =>
    rw [if_neg (by omega)]
    rfl
  | succ rounds ih =>
    rw [insertLoop, ih, ram_store, ram_store]
    by_cases hfirst : a = p
    · rw [if_neg (by omega), if_pos hfirst, if_pos (by omega), if_pos hfirst]
    · by_cases hrest : p + 2 ≤ a ∧ a < p + 2 + 2 * rounds ∧ (a - (p + 2)) % 2 = 0
      · rw [if_pos hrest, if_pos (show p ≤ a ∧ a < p + 2 * (rounds + 1) ∧ (a - p) % 2 = 0 by omega), if_neg hfirst]
        by_cases hsecond : a = p + 2
        · rw [if_pos hsecond, hsecond, Nat.add_sub_cancel]
        · rw [if_neg hsecond, if_neg (by omega)]
      · rw [if_neg hrest, if_neg hfirst, if_neg (by omega)]

/-- Each word comes to the place of the one before it. -/
theorem ram_deleteLoop (erase : BitVec 16) (rounds p a : Nat) (s : Screen) :
    (s.deleteLoop erase rounds p).ram a =
      if p ≤ a ∧ a < p + 2 * rounds ∧ (a - p) % 2 = 0 then s.ram (a + 2)
      else if a = p + 2 * rounds then erase else s.ram a := by
  induction rounds generalizing p s with
  | zero =>
    rw [if_neg (by omega)]
    exact ram_store p a erase s
  | succ rounds ih =>
    rw [deleteLoop, ih, ram_store, ram_store]
    by_cases hfirst : a = p
    · rw [if_neg (by omega), if_neg (by omega), if_pos hfirst, if_pos (by omega), hfirst]
    · by_cases hrest : p + 2 ≤ a ∧ a < p + 2 + 2 * rounds ∧ (a - (p + 2)) % 2 = 0
      · rw [if_pos hrest, if_neg (by omega), if_pos (by omega)]
      · rw [if_neg hrest]
        by_cases hlast : a = p + 2 + 2 * rounds
        · rw [if_pos hlast, if_neg (by omega), if_pos (by omega)]
        · rw [if_neg hlast, if_neg hfirst, if_neg (by omega), if_neg (by omega)]

theorem movslStd_end (ecx : Nat) (s : Screen) (hlo : 4 * ecx ≤ edi) (hhi : edi < 2 ^ 32) :
    (s.movslStd ecx edi esi).1 = edi - 4 * ecx := by
  induction ecx generalizing edi esi s with
  | zero => rfl
  | succ ecx ih =>
    have hedi : sub32 edi 4 = edi - 4 := sub32_of_le (by omega) hhi
    rw [movslStd, hedi, ih _ (by omega) (by omega)]
    omega

/-- `l` cells move down by a line of `n`, downwards, and the line above them is filled. -/
theorem ram_moveDown (w : BitVec 16) (o t l n k ecx : Nat) (s : Screen) (hecx : 4 * ecx = 2 * l) (hn : 2 ≤ n)
    (hlo : 4 ≤ o) (hhi : o + 2 * (t + l + n) ≤ 2 ^ 32) :
    ((s.movslStd ecx (o + 2 * (t + l + n) - 4) (o + 2 * (t + l) - 4)).2.stoswStd w n
      ((s.movslStd ecx (o + 2 * (t + l + n) - 4) (o + 2 * (t + l) - 4)).1 + 2)).ram (o + 2 * k) =
      if t ≤ k ∧ k < t + n then w
      else if t + n ≤ k ∧ k < t + n + l then s.ram (o + 2 * (k - n)) else s.ram (o + 2 * k) := by
  obtain rfl : l = 2 * ecx := by omega
  have hend : o + 2 * (t + n + 2 * ecx) - 4 - 4 * ecx + 2 = o + 2 * (t + n) - 2 := by omega
  rw [Nat.add_right_comm t, movslStd_end _ _ (by omega) (by omega), hend, ram_stoswStd _ _ _ _ _ _ (by omega) (by omega),
    ram_movslStd _ _ _ _ _ _ (Nat.le_add_right t n) hlo (by omega), Nat.add_sub_cancel_left]

/-- `l` cells move up by a line of `n`, and the line below them is filled. -/
theorem ram_moveUp (w : BitVec 16) (o t l n k ecx : Nat) (s : Screen) (hecx : 4 * ecx = 2 * l) :
    ((s.movsl ecx (o + 2 * t) (o + 2 * (t + n))).2.stosw w n
      (s.movsl ecx (o + 2 * t) (o + 2 * (t + n))).1).ram (o + 2 * k) =
      if t + l ≤ k ∧ k < t + l + n then w
      else if t ≤ k ∧ k < t + l then s.ram (o + 2 * (k + n)) else s.ram (o + 2 * k) := by
  rw [ram_stosw, movsl_end, ram_movsl (by omega), hecx]
  by_cases hfilled : t + l ≤ k ∧ k < t + l + n
  · rw [if_pos hfilled, if_pos (by omega)]
  · rw [if_neg hfilled, if_neg (by omega)]
    by_cases hcopied : t ≤ k ∧ k < t + l
    · rw [if_pos hcopied, if_pos (by omega)]
      exact congrArg s.ram (by omega)
    · rw [if_neg hcopied, if_neg (by omega)]

end Screen

/-! ## Lines and columns -/

variable {n r c b x y : Nat}

theorem cell_lt (hc : c < n) : r * n + c < b * n ↔ r < b := by
  constructor
  · intro h
    by_contra hle
    have hmul : b * n ≤ r * n := Nat.mul_le_mul_right n (Nat.not_lt.mp hle)
    omega
  · intro h
    have hmul : (r + 1) * n ≤ b * n := Nat.mul_le_mul_right n h
    rw [Nat.succ_mul] at hmul
    omega

theorem le_cell (hc : c < n) : b * n ≤ r * n + c ↔ b ≤ r := by
  rw [← Nat.not_lt, cell_lt hc, Nat.not_lt]

/-- The cells are numbered line by line. -/
theorem cell_le (hx : x ≤ n) (hc : c < n) : y * n + x ≤ r * n + c ↔ y < r ∨ y = r ∧ x ≤ c := by
  rcases Nat.lt_trichotomy y r with hlt | rfl | hgt
  · have hmul : (y + 1) * n ≤ r * n := Nat.mul_le_mul_right n hlt
    rw [Nat.succ_mul] at hmul
    omega
  · omega
  · have hmul : (r + 1) * n ≤ y * n := Nat.mul_le_mul_right n hgt
    rw [Nat.succ_mul] at hmul
    omega

theorem not_in_line (hx : x ≤ n) (hc : c < n) (hr : r ≠ y) : ¬ (y * n + x ≤ r * n + c ∧ r * n + c < y * n + n) := by
  rw [cell_le hx hc, ← Nat.succ_mul, cell_lt hc]
  omega

/-! ## The cells behind the functions of the console -/

namespace Console

open Lib (pull push)

variable {s : Console}

/-- The window, by lines and columns. -/
def grid (s : Console) (r c : Nat) : BitVec 16 := s.cell (r * s.videoNumColumns + c)

/-- The lines of the region, in bytes and in cells. -/
theorem Ok.regionCells (h : s.Ok) (heven : s.videoNumColumns % 2 = 0) : ∃ lines, lines ≤ 24 ∧
    s.bottom = s.top + lines + 1 ∧ sub32 (sub32 s.bottom s.top) 1 = lines ∧
    4 * (lines * s.videoNumColumns / 2) = 2 * (lines * s.videoNumColumns) ∧
    s.videoSizeRow * s.top = 2 * (s.top * s.videoNumColumns) ∧
    s.videoSizeRow * s.bottom =
      2 * (s.top * s.videoNumColumns) + 2 * (lines * s.videoNumColumns) + 2 * s.videoNumColumns := by
  obtain ⟨lines, -, hcount, hsplit, -⟩ := h.region
  have hrow := h.row
  have hmin := h.columns.1
  have hbottom := h.lines ▸ h.bottom_le
  have hlast : s.bottom = s.top + lines + 1 := by
    apply Nat.eq_of_mul_eq_mul_left (show 0 < s.videoSizeRow by omega)
    rw [← hsplit]
    ring
  have hmod : lines * s.videoNumColumns % 2 = 0 := by rw [Nat.mul_mod, heven, Nat.mul_zero, Nat.zero_mod]
  refine ⟨lines, by omega, hlast, hcount, by omega, ?_, ?_⟩
  · rw [hrow]
    ring
  · rw [hlast, hrow]
    ring

theorem grid_scrupLines (h : s.Ok) (heven : s.videoNumColumns % 2 = 0) (hc : c < s.videoNumColumns) :
    s.scrupLines.grid r c = pull s.top s.bottom 1 (fun _ => s.videoEraseChar) s.grid r c := by
  obtain ⟨lines, -, hlast, hcount, hwords, hstart, -⟩ := h.regionCells heven
  have hnext : s.videoSizeRow * (s.top + 1) = 2 * (s.top * s.videoNumColumns + s.videoNumColumns) := by
    rw [h.row]
    ring
  unfold grid Console.scrupLines cell
  simp only
  rw [hcount, hstart, hnext, Screen.ram_moveUp _ _ _ _ _ _ _ _ hwords, ← Nat.add_mul, ← Nat.succ_mul]
  simp only [le_cell hc, cell_lt hc]
  unfold pull
  rw [hlast]
  clear hcount hwords hstart hnext
  by_cases hin : s.top ≤ r ∧ r < s.top + lines + 1
  · rw [if_pos hin]
    by_cases hcopied : r < s.top + lines
    · rw [if_neg (fun hend => Nat.not_le.mpr hcopied hend.1), if_pos ⟨hin.1, hcopied⟩, if_pos (Nat.succ_lt_succ hcopied)]
      show _ = s.screen.ram (s.origin + 2 * ((r + 1) * s.videoNumColumns + c))
      rw [Nat.succ_mul r, Nat.add_right_comm]
    · rw [if_pos ⟨Nat.not_lt.mp hcopied, hin.2⟩, if_neg (fun hlt => hcopied (Nat.lt_of_succ_lt_succ hlt))]
  · rw [if_neg hin, if_neg (by omega), if_neg (by omega)]

theorem Ok.region_end (h : s.Ok) : s.origin + s.videoSizeRow * s.bottom < 2 ^ 31 :=
  calc s.origin + s.videoSizeRow * s.bottom
    _ ≤ s.origin + s.videoSizeRow * s.videoNumLines := Nat.add_le_add_left (Nat.mul_le_mul_left _ h.bottom_le) _
    _ = s.scrEnd := by rw [h.end_eq, Nat.mul_comm]
    _ ≤ s.videoMemEnd := h.end_le
    _ < 2 ^ 31 := h.mem.2.2

theorem grid_scrdown (h : s.Ok) (heven : s.videoNumColumns % 2 = 0) (hc : c < s.videoNumColumns) :
    s.scrdown.grid r c = push s.top s.bottom 1 (fun _ => s.videoEraseChar) s.grid r c := by
  obtain ⟨lines, -, hlast, hcount, hwords, -, hbottom⟩ := h.regionCells heven
  have hlo : 4 ≤ s.origin := h.mem.1.trans h.start
  have hmin := h.columns.1
  have hbelow := h.region_end
  rw [← Nat.mul_add, ← Nat.mul_add] at hbottom
  rw [hbottom] at hbelow
  have hedi : sub32 (s.origin + s.videoSizeRow * s.bottom) 4 =
      s.origin + 2 * (s.top * s.videoNumColumns + lines * s.videoNumColumns + s.videoNumColumns) - 4 := by
    rw [hbottom, sub32_of_le (by omega) (by omega)]
  have hbefore : sub32 s.bottom 1 = s.top + lines := by
    have hle := h.lines ▸ h.bottom_le
    rw [sub32_of_le (by omega) (by omega), hlast, Nat.add_sub_cancel]
  have hsource : s.videoSizeRow * (s.top + lines) =
      2 * (s.top * s.videoNumColumns + lines * s.videoNumColumns) := by
    rw [h.row]
    ring
  have hesi : sub32 (s.origin + s.videoSizeRow * sub32 s.bottom 1) 4 =
      s.origin + 2 * (s.top * s.videoNumColumns + lines * s.videoNumColumns) - 4 := by
    rw [hbefore, hsource, sub32_of_le (by omega) (by omega)]
  unfold grid Console.scrdown cell
  simp only
  rw [hcount, hedi, hesi, Screen.ram_moveDown _ _ _ _ _ _ _ _ hwords (by omega) hlo (by omega),
    ← Nat.succ_mul s.top, ← Nat.add_mul, Nat.succ_add s.top lines]
  simp only [le_cell hc, cell_lt hc]
  unfold push
  rw [hlast]
  clear hcount hwords hbelow hedi hbefore hsource hesi
  by_cases hin : s.top ≤ r ∧ r < s.top + lines + 1
  · rw [if_pos hin]
    by_cases hcopied : s.top + 1 ≤ r
    · rw [if_neg (fun hfirst => Nat.not_lt.mpr hcopied hfirst.2), if_pos ⟨hcopied, hin.2⟩, if_pos hcopied]
      obtain ⟨k, rfl⟩ : ∃ k, r = k + 1 := Nat.exists_eq_succ_of_ne_zero (by omega)
      show _ = s.screen.ram (s.origin + 2 * (k * s.videoNumColumns + c))
      rw [Nat.succ_mul k, Nat.add_right_comm, Nat.add_sub_cancel]
    · rw [if_pos ⟨hin.1, Nat.not_le.mp hcopied⟩, if_neg hcopied]
  · rw [if_neg hin, if_neg (by omega), if_neg (by omega)]

theorem scrup_of_not_full (hfull : ¬ s.Full) : s.scrup = s.scrupLines := by
  unfold Console.scrup
  split
  · rw [if_neg (show ¬ (s.top = 0 ∧ s.bottom = s.videoNumLines) from hfull)]
  · rfl

/-- Scrolling by hardware shows the same as scrolling the whole screen by copies. -/
theorem grid_scrup (h : s.Ok) (heven : s.videoNumColumns % 2 = 0) (hr : r < 25) (hc : c < s.videoNumColumns) :
    s.scrup.grid r c = pull s.top s.bottom 1 (fun _ => s.videoEraseChar) s.grid r c := by
  by_cases hfull : s.Full
  · have hscrolled := h.scrolled hfull
    obtain ⟨htop, hbottom⟩ := hfull
    have hin : r * s.videoNumColumns + c < 25 * s.videoNumColumns := (cell_lt hc).mpr hr
    have hlast := cell_lt (b := 24) (r := r) hc
    unfold grid
    rw [hscrolled.columns, hscrolled.cells _ hin, hbottom, htop, h.lines]
    unfold pull
    rw [if_pos (show 0 ≤ r ∧ r < 25 from ⟨Nat.zero_le r, hr⟩)]
    by_cases hmoved : r < 24
    · rw [if_pos (hlast.mpr hmoved), if_pos (by omega)]
      show s.cell _ = s.cell ((r + 1) * s.videoNumColumns + c)
      rw [Nat.succ_mul r]
      exact congrArg s.cell (by omega)
    · rw [if_neg (by omega), if_neg (by omega)]
  · rw [scrup_of_not_full hfull]
    exact grid_scrupLines h heven hc

/-! ## Erasing, inserting, deleting -/

/-- What an operation that stores leaves in a cell. -/
theorem grid_store (k : Nat) (w : BitVec 16) :
    Console.grid { s with screen := s.screen.store (s.origin + 2 * k) w } r c =
      if r * s.videoNumColumns + c = k then w else s.grid r c := by
  show (s.screen.store (s.origin + 2 * k) w).ram (s.origin + 2 * (r * s.videoNumColumns + c)) = _
  rw [Screen.ram_store]
  by_cases hk : r * s.videoNumColumns + c = k
  · rw [if_pos hk, if_pos (by omega)]
  · rw [if_neg hk, if_neg (by omega)]
    rfl

theorem grid_erase (count k : Nat) : (s.erase count (s.origin + 2 * k)).grid r c =
    if k ≤ r * s.videoNumColumns + c ∧ r * s.videoNumColumns + c < k + count then s.videoEraseChar
    else s.grid r c := by
  unfold grid cell erase
  simp only
  rw [Screen.ram_stosw]
  by_cases hk : k ≤ r * s.videoNumColumns + c ∧ r * s.videoNumColumns + c < k + count
  · rw [if_pos hk, if_pos (by omega)]
  · rw [if_neg hk, if_neg (by omega)]

/-- In the line of the cursor. -/
theorem Ok.pos_cell (h : s.Ok) : s.pos = s.origin + 2 * (s.y * s.videoNumColumns + s.x) := by
  rw [h.pos_eq, h.row]
  ring

theorem grid_insertChar (h : s.Ok) (hc : c < s.videoNumColumns) : s.insertChar.grid r c =
    Function.update s.grid s.y (push s.x s.videoNumColumns 1 s.videoEraseChar (s.grid s.y)) r c := by
  have hx := h.x_le
  unfold grid cell insertChar
  simp only
  rw [Screen.ram_insertLoop, h.pos_cell, Function.update_apply]
  by_cases hr : r = s.y
  · subst hr
    rw [if_pos rfl]
    unfold push
    by_cases hin : s.x ≤ c
    · rw [if_pos (by omega), if_pos (show s.x ≤ c ∧ c < s.videoNumColumns from ⟨hin, hc⟩)]
      by_cases hfirst : c = s.x
      · rw [if_pos (by omega), if_neg (by omega)]
      · rw [if_neg (by omega), if_pos (by omega)]
        exact congrArg s.screen.ram (by omega)
    · rw [if_neg (by omega), if_neg (by omega)]
  · have hout := not_in_line h.x_le hc hr
    rw [if_neg hr, if_neg (by omega)]

theorem grid_deleteChar (h : s.Ok) (hc : c < s.videoNumColumns) : s.deleteChar.grid r c =
    Function.update s.grid s.y (pull s.x s.videoNumColumns 1 s.videoEraseChar (s.grid s.y)) r c := by
  have hx := h.x_le
  unfold deleteChar
  rw [Function.update_apply]
  unfold pull
  by_cases hedge : s.x ≥ s.videoNumColumns
  · rw [if_pos hedge]
    split
    · next hr =>
      rw [hr]
      exact (if_neg (by omega)).symm
    · rfl
  · rw [if_neg hedge]
    unfold grid cell
    simp only
    rw [Screen.ram_deleteLoop, h.pos_cell]
    by_cases hr : r = s.y
    · subst hr
      rw [if_pos rfl]
      by_cases hin : s.x ≤ c
      · rw [if_pos (show s.x ≤ c ∧ c < s.videoNumColumns from ⟨hin, hc⟩)]
        by_cases hlast : c + 1 < s.videoNumColumns
        · rw [if_pos (by omega), if_pos hlast]
          exact congrArg s.screen.ram (by omega)
        · rw [if_neg (by omega), if_pos (by omega), if_neg hlast]
      · rw [if_neg (by omega), if_neg (by omega), if_neg (by omega)]
    · have hout := not_in_line h.x_le hc hr
      rw [if_neg hr, if_neg (by omega), if_neg (by omega)]

end Console

end Linux011.Chr
