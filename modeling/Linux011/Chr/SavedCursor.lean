import Linux011.Chr.Cursor

/-!
# The saved cursor

Behind ESC, `con_write` tests `x` for the characters `7` and `8` and not the character that it has read. Where
the two tests agree (`Meets`), ESC 7 saves the cursor and ESC 8 brings it back.
-/

namespace Linux011.Chr

namespace Console

/-! ## What no character changes -/

/-- The saved position is still there, and the screen is as wide as before. -/
structure Kept (s s' : Console) : Prop where
  columns : s'.videoNumColumns = s.videoNumColumns
  savedX : s'.savedX = s.savedX
  savedY : s'.savedY = s.savedY

variable {s s' t : Console} {eraseChar : Nat}

namespace Kept

theorem refl (s : Console) : Kept s s := ⟨rfl, rfl, rfl⟩

theorem trans (h : Kept s s') (h' : Kept s' t) : Kept s t :=
  ⟨h'.columns.trans h.columns, h'.savedX.trans h.savedX, h'.savedY.trans h.savedY⟩

/-- The cursor stands somewhere else. -/
theorem moved (x y pos : Nat) (s : Console) : Kept s { s with x, y, pos } := ⟨rfl, rfl, rfl⟩

theorem gotoxy (newX newY : Nat) (s : Console) : Kept s (s.gotoxy newX newY) := by
  unfold Console.gotoxy
  split
  · exact refl s
  · exact ⟨rfl, rfl, rfl⟩

theorem scrup (s : Console) : Kept s s.scrup := by
  unfold Console.scrup
  split
  · split
    · simp only
      split
      · exact ⟨rfl, rfl, rfl⟩
      · exact ⟨rfl, rfl, rfl⟩
    · exact ⟨rfl, rfl, rfl⟩
  · exact ⟨rfl, rfl, rfl⟩

theorem lf (s : Console) : Kept s s.lf := by
  unfold Console.lf
  split
  · exact ⟨rfl, rfl, rfl⟩
  · exact scrup s

theorem ri (s : Console) : Kept s s.ri := by
  unfold Console.ri
  split
  · exact ⟨rfl, rfl, rfl⟩
  · exact ⟨rfl, rfl, rfl⟩

theorem cr (s : Console) : Kept s s.cr := moved _ _ _ s

theorem del (s : Console) : Kept s s.del := by
  unfold Console.del
  split
  · exact ⟨rfl, rfl, rfl⟩
  · exact refl s

theorem erase (count start : Nat) (s : Console) : Kept s (s.erase count start) := ⟨rfl, rfl, rfl⟩

theorem csiJ (par : Nat) (s : Console) : Kept s (s.csiJ par) := by
  unfold Console.csiJ
  split
  · exact erase _ _ s
  · exact erase _ _ s
  · exact erase _ _ s
  · exact refl s

theorem csiK (par : Nat) (s : Console) : Kept s (s.csiK par) := by
  unfold Console.csiK
  split
  · split
    · exact refl s
    · exact erase _ _ s
  · exact erase _ _ s
  · exact erase _ _ s
  · exact refl s

theorem scrdown (s : Console) : Kept s s.scrdown := by
  unfold Console.scrdown
  exact ⟨rfl, rfl, rfl⟩

theorem insertLine (s : Console) : Kept s s.insertLine :=
  have hdown := scrdown { s with top := s.y, bottom := s.videoNumLines }
  ⟨hdown.columns, hdown.savedX, hdown.savedY⟩

theorem deleteLine (s : Console) : Kept s s.deleteLine := by
  have hup := scrup { s with top := s.y, bottom := s.videoNumLines }
  exact ⟨hup.columns, hup.savedX, hup.savedY⟩

theorem insertChar (s : Console) : Kept s s.insertChar := by
  unfold Console.insertChar
  exact ⟨rfl, rfl, rfl⟩

theorem deleteChar (s : Console) : Kept s s.deleteChar := by
  unfold Console.deleteChar
  split
  · exact refl s
  · exact ⟨rfl, rfl, rfl⟩

/-- What is done a number of times. -/
theorem iterate {f : Console → Console} (hf : ∀ s, Kept s (f s)) (n : Nat) (s : Console) : Kept s (f^[n] s) := by
  induction n generalizing s with
  | zero => exact refl s
  | succ n ih =>
    rw [Function.iterate_succ_apply]
    exact (hf s).trans (ih (f s))

theorem atLeastOne (i : Nat) (s : Console) : Kept s (s.atLeastOne i) := by
  unfold Console.atLeastOne
  split
  · exact ⟨rfl, rfl, rfl⟩
  · exact refl s

theorem fromZero (i : Nat) (s : Console) : Kept s (s.fromZero i) := by
  unfold Console.fromZero
  split
  · exact ⟨rfl, rfl, rfl⟩
  · exact refl s

/-- The cursor goes to the next line. -/
theorem wrapped (x pos : Nat) (s : Console) : Kept s (Console.lf { s with x, pos }) :=
  have hlf := lf { s with x, pos }
  ⟨hlf.columns, hlf.savedX, hlf.savedY⟩

theorem print (c : Nat) (s : Console) : Kept s (s.print c) := by
  unfold Console.print
  simp only
  split
  · have hwrapped := wrapped (s.x - s.videoNumColumns) (sub32 s.pos s.videoSizeRow) s
    exact ⟨hwrapped.columns, hwrapped.savedX, hwrapped.savedY⟩
  · exact ⟨rfl, rfl, rfl⟩

theorem tab (s : Console) : Kept s s.tab := by
  unfold Console.tab
  simp only
  split
  · exact wrapped _ _ s
  · exact ⟨rfl, rfl, rfl⟩

theorem case0 (eraseChar c : Nat) (s : Console) : Kept s (s.case0 eraseChar c) := by
  unfold Console.case0
  split
  · exact print c s
  · split
    · exact ⟨rfl, rfl, rfl⟩
    · split
      · exact lf s
      · split
        · exact cr s
        · split
          · exact del s
          · split
            · split
              · exact moved _ _ _ s
              · exact refl s
            · split
              · exact tab s
              · exact refl s

/-- Behind ESC only `x == '7'` leads to `save_cur`. -/
theorem case1 {c : Nat} (h : c = '['.toNat ∨ c = 'E'.toNat ∨ c = 'M'.toNat ∨ c = 'D'.toNat ∨ c = 'Z'.toNat ∨ s.x ≠ '7'.toNat) :
    Kept s (s.case1 c) := by
  have h0 : Kept s { s with state := 0 } := ⟨rfl, rfl, rfl⟩
  unfold Console.case1
  simp only
  split
  · exact ⟨rfl, rfl, rfl⟩
  · split
    · exact h0.trans (gotoxy _ _ _)
    · split
      · exact h0.trans (ri _)
      · split
        · exact h0.trans (lf _)
        · split
          · exact h0
          · split
            · next hx => omega
            · split
              · exact h0.trans (gotoxy _ _ _)
              · exact h0

/-- A sequence that does not end in `s`. -/
theorem case4 {c : Nat} (h : Char.ofNat c ≠ 's') (s : Console) : Kept s (s.case4 c) := by
  have h0 : Kept s { s with state := 0 } := ⟨rfl, rfl, rfl⟩
  have hone := h0.trans (atLeastOne 0 _)
  have hzero := h0.trans (fromZero 0 _)
  unfold Console.case4
  simp only
  split
  · exact hzero.trans (gotoxy _ _ _)
  · exact hone.trans (gotoxy _ _ _)
  · exact hone.trans (gotoxy _ _ _)
  · exact hone.trans (gotoxy _ _ _)
  · exact hone.trans (gotoxy _ _ _)
  · exact hone.trans (gotoxy _ _ _)
  · exact hone.trans (gotoxy _ _ _)
  · exact hone.trans (gotoxy _ _ _)
  · exact hone.trans (gotoxy _ _ _)
  · exact hzero.trans (gotoxy _ _ _)
  · exact (hzero.trans (fromZero 1 _)).trans (gotoxy _ _ _)
  · exact (hzero.trans (fromZero 1 _)).trans (gotoxy _ _ _)
  · exact h0.trans (csiJ _ _)
  · exact h0.trans (csiK _ _)
  · exact h0.trans (iterate insertLine _ _)
  · exact h0.trans (iterate deleteLine _ _)
  · exact h0.trans (iterate deleteChar _ _)
  · exact h0.trans (iterate insertChar _ _)
  · exact ⟨rfl, rfl, rfl⟩
  · -- neither the last parameter nor the region is looked at
    have hregion : ∀ t : Console, Kept s t → Kept s (if t.par 0 < t.par 1 ∧ t.par 1 ≤ t.videoNumLines then
        { t with top := t.par 0, bottom := t.par 1 } else t) := by
      intro t ht
      split
      · exact ⟨ht.columns, ht.savedX, ht.savedY⟩
      · exact ht
    apply hregion
    split
    · exact ⟨hzero.columns, hzero.savedX, hzero.savedY⟩
    · exact hzero
  · next hs => exact absurd hs h
  · exact h0.trans (gotoxy _ _ _)
  · split
    · exact hzero.trans (gotoxy _ _ _)
    · exact h0

theorem case3 {c : Nat} (h : Char.ofNat c ≠ 's') (s : Console) : Kept s (s.case3 c) := by
  unfold Console.case3
  split
  · exact ⟨rfl, rfl, rfl⟩
  · split
    · exact ⟨rfl, rfl, rfl⟩
    · have h4 : Kept s { s with state := 4 } := ⟨rfl, rfl, rfl⟩
      exact h4.trans (case4 h _)

theorem case2 {c : Nat} (h : Char.ofNat c ≠ 's') (s : Console) : Kept s (s.case2 c) := by
  unfold Console.case2
  simp only
  split
  · exact ⟨rfl, rfl, rfl⟩
  · have hcase := case3 h { s with
      par := fun i => if i < nPar then 0 else s.par i
      npar := 0
      state := 3
      ques := decide (c = '?'.toNat) }
    exact ⟨hcase.columns, hcase.savedX, hcase.savedY⟩

end Kept

/-! ## Runs -/

/-- The characters that are looked at behind ESC. -/
def Named (c : UInt8) : Prop :=
  c.toNat = '['.toNat ∨ c.toNat = 'E'.toNat ∨ c.toNat = 'M'.toNat ∨ c.toNat = 'D'.toNat ∨ c.toNat = 'Z'.toNat

/-- The tests of `x` behind ESC come out as tests of the character would. -/
def Meets (s : Console) (c : UInt8) : Prop :=
  s.state = 1 → ¬ Named c → (s.x = '7'.toNat ↔ c.toNat = '7'.toNat) ∧ (s.x = '8'.toNat ↔ c.toNat = '8'.toNat)

/-- The character ends ESC 7 or CSI s. -/
def Saves (s : Console) (c : UInt8) : Prop :=
  s.state = 1 ∧ c.toNat = '7'.toNat ∨ (s.state = 2 ∨ s.state = 3 ∨ s.state = 4) ∧ c.toNat = 's'.toNat

/-- The character ends ESC 8 or CSI u. -/
def Restores (s : Console) (c : UInt8) : Prop :=
  s.state = 1 ∧ c.toNat = '8'.toNat ∨ (s.state = 2 ∨ s.state = 3 ∨ s.state = 4) ∧ c.toNat = 'u'.toNat

instance (c : UInt8) : Decidable (Named c) := inferInstanceAs (Decidable (_ = _ ∨ _ = _ ∨ _ = _ ∨ _ = _ ∨ _ = _))

instance (s : Console) (c : UInt8) : Decidable (s.Meets c) :=
  inferInstanceAs (Decidable (_ = _ → ¬ Named c → (_ = _ ↔ _ = _) ∧ (_ = _ ↔ _ = _)))

instance (s : Console) (c : UInt8) : Decidable (s.Saves c) :=
  inferInstanceAs (Decidable (_ = _ ∧ _ = _ ∨ (_ = _ ∨ _ = _ ∨ _ = _) ∧ _ = _))

instance (s : Console) (c : UInt8) : Decidable (s.Restores c) :=
  inferInstanceAs (Decidable (_ = _ ∧ _ = _ ∨ (_ = _ ∨ _ = _ ∨ _ = _) ∧ _ = _))

/-- All characters are written in states that they go with. -/
def Along (P : Console → UInt8 → Prop) (eraseChar : Nat) : List UInt8 → Console → Prop
  | [], _ => True
  | c :: bytes, s => P s c ∧ Along P eraseChar bytes (s.putc eraseChar c)

instance Along.decidable (P : Console → UInt8 → Prop) [∀ s c, Decidable (P s c)] (eraseChar : Nat) :
    ∀ bytes s, Decidable (Along P eraseChar bytes s)
  | [], _ => isTrue trivial
  | c :: bytes, s =>
    have := Along.decidable P eraseChar bytes (s.putc eraseChar c)
    inferInstanceAs (Decidable (P s c ∧ Along P eraseChar bytes (s.putc eraseChar c)))

theorem conWrite_append (eraseChar : Nat) (bytes bytes' : List UInt8) (s : Console) :
    s.conWrite eraseChar (bytes ++ bytes') = (s.conWrite eraseChar bytes).conWrite eraseChar bytes' :=
  List.foldl_append

theorem Along.append {P : Console → UInt8 → Prop} {bytes bytes' : List UInt8}
    (h : Along P eraseChar (bytes ++ bytes') s) :
    Along P eraseChar bytes s ∧ Along P eraseChar bytes' (s.conWrite eraseChar bytes) := by
  induction bytes generalizing s with
  | nil => exact ⟨trivial, h⟩
  | cons c bytes ih =>
    obtain ⟨hc, hrest⟩ := h
    obtain ⟨hbytes, hbytes'⟩ := ih hrest
    exact ⟨⟨hc, hbytes⟩, hbytes'⟩

/-- The letter `s` has the code 115 only. -/
theorem ofNat_ne_s {c : UInt8} (h : c.toNat ≠ 's'.toNat) : Char.ofNat c.toNat ≠ 's' := by
  intro hs
  apply h
  have hvalid : c.toNat.isValidChar := Or.inl (Nat.lt_trans c.toNat_lt (by decide))
  rw [← hs, Char.ofNat, dif_pos hvalid]
  rfl

/-- One character that does not save. -/
theorem Kept.putc {c : UInt8} (hmeets : s.Meets c) (hsaves : ¬ s.Saves c) : Kept s (s.putc eraseChar c) := by
  have hletter : s.state = 2 ∨ s.state = 3 ∨ s.state = 4 → Char.ofNat c.toNat ≠ 's' := fun hstate =>
    ofNat_ne_s fun hc => hsaves (Or.inr ⟨hstate, hc⟩)
  unfold Console.putc
  split
  · exact case0 _ _ s
  · next hstate =>
    by_cases hnamed : Named c
    · unfold Named at hnamed
      exact case1 (by omega)
    · have hx : s.x ≠ '7'.toNat := fun hx => hsaves (Or.inl ⟨hstate, ((hmeets hstate hnamed).1.mp hx)⟩)
      exact case1 (by omega)
  · next hstate => exact case2 (hletter (Or.inl hstate)) s
  · next hstate => exact case3 (hletter (Or.inr (Or.inl hstate))) s
  · next hstate => exact case4 (hletter (Or.inr (Or.inr hstate))) s
  · exact refl s

theorem Kept.conWrite {bytes : List UInt8} (hmeets : Along Meets eraseChar bytes s)
    (hsaves : Along (fun s c => ¬ s.Saves c) eraseChar bytes s) : Kept s (s.conWrite eraseChar bytes) := by
  induction bytes generalizing s with
  | nil => exact refl s
  | cons c bytes ih => exact (putc hmeets.1 hsaves.1).trans (ih hmeets.2 hsaves.2)

theorem putc_esc (hidle : s.state = 0) : s.putc eraseChar 27 = { s with state := 1 } := by
  unfold putc
  rw [hidle]
  rfl

/-- ESC 7 in a column where it is seen. -/
theorem conWrite_save (hidle : s.state = 0) (hmeets : Along Meets eraseChar [27, 55] s) :
    s.conWrite eraseChar [27, 55] = { s with state := 0, savedX := s.x, savedY := s.y } := by
  obtain ⟨-, hseven, -⟩ := hmeets
  rw [putc_esc hidle] at hseven
  have hx : s.x = '7'.toNat := (hseven rfl (by decide)).1.mpr rfl
  show (s.putc eraseChar 27).putc eraseChar 55 = _
  rw [putc_esc hidle]
  show (if s.x = '7'.toNat then saveCur { s with state := 0 } else _) = _
  rw [if_pos hx]
  rfl

/-- ESC 8 in a column where it is seen. -/
theorem conWrite_restore (hidle : s.state = 0) (hmeets : Along Meets eraseChar [27, 56] s) :
    s.conWrite eraseChar [27, 56] = restoreCur { s with state := 0 } := by
  obtain ⟨-, height, -⟩ := hmeets
  rw [putc_esc hidle] at height
  have hx : s.x = '8'.toNat := (height rfl (by decide)).2.mpr rfl
  have hnot : ¬ s.x = '7'.toNat := by
    rw [hx]
    decide
  show (s.putc eraseChar 27).putc eraseChar 56 = _
  rw [putc_esc hidle]
  show (if s.x = '7'.toNat then _ else if s.x = '8'.toNat then restoreCur { s with state := 0 } else _) = _
  rw [if_neg hnot, if_pos hx]

/-- A saved position is one of the screen. -/
theorem restoreCur_at (hx : s.savedX ≤ s.videoNumColumns) (hy : s.savedY < s.videoNumLines) :
    s.restoreCur.x = s.savedX ∧ s.restoreCur.y = s.savedY := by
  unfold restoreCur gotoxy
  rw [if_neg (by omega)]
  exact ⟨rfl, rfl⟩

/-- Where all tests behind ESC meet: ESC 7, whatever else without a save, and ESC 8 put the cursor back, and nothing
but ESC 7 and CSI s changes the saved position. -/
theorem save_restore (eraseChar : Nat) (s : Console) (bytes : List UInt8) (h : s.Ok) (hidle : s.state = 0)
    (hback : (s.conWrite eraseChar ([27, 55] ++ bytes)).state = 0)
    (hnone : Along (fun s c => ¬ s.Saves c) eraseChar bytes (s.conWrite eraseChar [27, 55]))
    (hmeets : Along Meets eraseChar ([27, 55] ++ bytes ++ [27, 56]) s) :
    let back := s.conWrite eraseChar ([27, 55] ++ bytes ++ [27, 56])
    (back.x = s.x ∧ back.y = s.y) ∧
      ∀ (t : Console) (run : List UInt8), Along Meets eraseChar run t →
        Along (fun s c => ¬ s.Saves c) eraseChar run t →
          (t.conWrite eraseChar run).savedX = t.savedX ∧ (t.conWrite eraseChar run).savedY = t.savedY := by
  obtain ⟨hbefore, hafter⟩ := hmeets.append
  obtain ⟨hsave, hbytes⟩ := hbefore.append
  have hsaved := conWrite_save hidle hsave
  have hkept := Kept.conWrite hbytes hnone
  have hok : (s.conWrite eraseChar ([27, 55] ++ bytes)).Ok := h.conWrite eraseChar _
  refine ⟨?_, fun t run hrun hquiet => ⟨(Kept.conWrite hrun hquiet).savedX, (Kept.conWrite hrun hquiet).savedY⟩⟩
  rw [conWrite_append, conWrite_restore hback hafter]
  rw [← conWrite_append, hsaved] at hkept
  obtain ⟨hcolumns, hx, hy⟩ := hkept
  obtain ⟨hatx, haty⟩ := restoreCur_at (s := { s.conWrite eraseChar ([27, 55] ++ bytes) with state := 0 })
    (by
      show (s.conWrite eraseChar ([27, 55] ++ bytes)).savedX ≤ (s.conWrite eraseChar ([27, 55] ++ bytes)).videoNumColumns
      rw [hx, hcolumns]
      exact h.x_le)
    (by
      show (s.conWrite eraseChar ([27, 55] ++ bytes)).savedY < (s.conWrite eraseChar ([27, 55] ++ bytes)).videoNumLines
      rw [hy, hok.lines, ← h.lines]
      exact h.y_lt)
  exact ⟨hatx.trans hx, haty.trans hy⟩

/-- From column 55 one letter leads to column 56. -/
theorem save_restore_55 : let s := conInit ⟨55, 3, 0x5003, 0⟩ fun _ => 0x0720
    (s.conWrite 127 ([27, 55] ++ [65] ++ [27, 56])).x = s.x ∧ (s.conWrite 127 ([27, 55] ++ [65] ++ [27, 56])).y = s.y :=
  (save_restore 127 (conInit ⟨55, 3, 0x5003, 0⟩ fun _ => 0x0720) [65]
    (conInit_ok ⟨by decide, by decide, by decide, by decide⟩ fun _ => 0x0720) rfl (by decide +kernel) (by decide +kernel)
    (by decide +kernel)).1

/-- From column 0 the cursor does not come back, and in column 55 another sequence saves it. -/
theorem save_restore_0 :
    let s := conInit ⟨0, 3, 0x5003, 0⟩ fun _ => 0x0720
    let s' := conInit ⟨55, 3, 0x5003, 0⟩ fun _ => 0x0720
    (s.state = 0 ∧ (s.conWrite 127 ([27, 55] ++ [65])).state = 0 ∧
      Along (fun s c => ¬ s.Saves c ∧ ¬ s.Restores c) 127 [65] (s.conWrite 127 [27, 55]) ∧
      s.x = 0 ∧ (s.conWrite 127 ([27, 55] ++ [65] ++ [27, 56])).x = 1) ∧
    Along (fun s c => ¬ s.Saves c) 127 [27, 61] s' ∧ s'.savedX = 0 ∧ (s'.conWrite 127 [27, 61]).savedX = 55 := by
  decide +kernel

end Console

end Linux011.Chr
