import Linux011.Exec.Tables
import Mathlib.Data.List.DropRight
import Mathlib.Data.List.TakeWhile

/-!
# Scripts

What `do_execve` does with a file that starts with `#!`: the line is taken apart in place, in a buffer on the
kernel stack, and the strings of the interpreter go below those of the script. `interpreter` says what the line
means; `parseLine` is what the code does, with pointers into the buffer as indices.
-/

namespace Linux011.Exec

open Linux011.Lib Linux011.Mm

/-- `strncpy`: the rest is filled with zeros. -/
def strncpy (src : Nat → UInt8) : (count i : Nat) → (dest : Nat → UInt8) → Nat → UInt8
  | 0, _, dest => dest
  | count + 1, i, dest =>
    let dest := Function.update dest i (src i)
    if src i = 0 then fun j => if i < j ∧ j < i + 1 + count then 0 else dest j
    else strncpy src count (i + 1) dest

/-- `strchr`, in at most `k` steps -/
def strchr (s : Nat → UInt8) (c : UInt8) : (k : Nat) → (p : Nat) → Option Nat
  | 0, _ => none
  | k + 1, p => if s p = c then some p else if s p = 0 then none else strchr s c k (p + 1)

/-- `(*cp == ' ') || (*cp == '\t')` -/
def isBlank (c : UInt8) : Bool := c = 32 ∨ c = 9

def skipBlanks (buf : Nat → UInt8) : (k : Nat) → (cp : Nat) → Nat
  | 0, cp => cp
  | k + 1, cp => if isBlank (buf cp) then skipBlanks buf k (cp + 1) else cp

/-- The loop over the name of the interpreter: `cp` and `i_name`. -/
def scanName (buf : Nat → UInt8) : (k : Nat) → (cp iName : Nat) → Nat × Nat
  | 0, cp, iName => (cp, iName)
  | k + 1, cp, iName =>
    if buf cp ≠ 0 ∧ ¬ isBlank (buf cp) then scanName buf k (cp + 1) (if buf cp = 47 then cp + 1 else iName)
    else (cp, iName)

/-- `buf`, and the pointers into it. -/
structure Line where
  buf : Nat → UInt8
  interp : Nat
  iName : Nat
  iArg : Option Nat

/-- The `#!` line of the block, or `none` for "No interpreter name found". `buf` is not initialised. -/
def parseLine (buf block : Nat → UInt8) : Option Line :=
  let buf := Function.update (strncpy (fun i => block (i + 2)) 1022 0 buf) 1022 0
  match strchr buf 10 1023 0 with
  | none => none
  | some cp =>
    let buf := Function.update buf cp 0
    let interp := skipBlanks buf 1023 0
    if buf interp = 0 then none
    else
      let (cp, iName) := scanName buf 1023 interp interp
      if buf cp = 0 then some ⟨buf, interp, iName, none⟩
      else some ⟨Function.update buf cp 0, interp, iName, some (cp + 1)⟩

/-- `count` bytes from `i` on. -/
def bytesFrom (src : Nat → UInt8) : (count i : Nat) → List UInt8
  | 0, _ => []
  | count + 1, i => src i :: bytesFrom src count (i + 1)

/-- The string that a pointer into `buf` points to. -/
def cstr (buf : Nat → UInt8) (p : Nat) : CStr :=
  ⟨(bytesFrom buf 1023 p).takeWhile (· ≠ 0), fun b hb => by simpa using List.mem_takeWhile_imp hb⟩

/-- The strings that take the place of `argv[0]`, and `argc` with them: `argc` is counted apart from what is
laid. -/
def spliceCalls (argc envc : Int) (argv envp : List CStr) (filename : CStr) (line : Line) : Int × List Copy :=
  let argc := argc - 1
  let calls : List Copy := [⟨envc, envp, 0⟩, ⟨argc, argv.tail, 0⟩]
  let calls := calls ++ [(⟨1, [filename], 1⟩ : Copy)]
  let argc := argc + 1
  let (argc, calls) := match line.iArg with
    | some iArg => (argc + 1, calls ++ [(⟨1, [cstr line.buf iArg], 2⟩ : Copy)])
    | none => (argc, calls)
  let calls := calls ++ [(⟨1, [cstr line.buf line.iName], 2⟩ : Copy)]
  (argc + 1, calls)

/-! ## What the line means -/

/-- A path of an interpreter, and what comes after the blank that ends it. -/
structure Interp where
  path : List UInt8
  rest : Option (List UInt8)
deriving DecidableEq

/-- The interpreter that the first block names. The line ends with a newline. -/
def interpreter (block : Nat → UInt8) : Option Interp :=
  let text := (bytesFrom block 1022 2).takeWhile (· ≠ 0)
  if 10 ∈ text then
    let line := (text.takeWhile (· ≠ 10)).dropWhile isBlank
    if line = [] then none
    else some ⟨line.takeWhile (!isBlank ·), (line.dropWhile (!isBlank ·)).tail?⟩
  else none

/-- What follows the last `/`. -/
def basename (path : List UInt8) : List UInt8 := path.rtakeWhile (· ≠ 47)

/-- The bytes at `p` up to a zero are `l`. -/
structure CString (buf : Nat → UInt8) (p : Nat) (l : List UInt8) : Prop where
  byte : ∀ i (h : i < l.length), buf (p + i) = l[i]
  zero : buf (p + l.length) = 0
  nonzero : ∀ b ∈ l, b ≠ 0

section Strings

variable {buf src dest : Nat → UInt8} {p k : Nat} {c : UInt8} {l xs ys : List UInt8}

theorem cstring_nil : CString buf p [] ↔ buf p = 0 :=
  ⟨fun h => h.zero, fun h => ⟨fun _ hi => absurd hi (Nat.not_lt_zero _), h, fun _ hb => absurd hb List.not_mem_nil⟩⟩

theorem cstring_cons : CString buf p (c :: l) ↔ buf p = c ∧ c ≠ 0 ∧ CString buf (p + 1) l := by
  constructor
  · intro h
    refine ⟨h.byte 0 (Nat.zero_lt_succ _), h.nonzero c List.mem_cons_self, fun i hi => ?_, ?_, ?_⟩
    · rw [Nat.add_assoc, Nat.add_comm 1]
      exact h.byte (i + 1) (Nat.succ_lt_succ hi)
    · rw [Nat.add_assoc, Nat.add_comm 1]
      exact h.zero
    · exact fun b hb => h.nonzero b (List.mem_cons_of_mem c hb)
  · rintro ⟨hc, hne, h⟩
    refine ⟨fun i hi => ?_, ?_, fun b hb => ?_⟩
    · cases i with
      | zero => exact hc
      | succ i =>
        rw [show p + (i + 1) = p + 1 + i by omega]
        exact h.byte i (Nat.lt_of_succ_lt_succ hi)
    · rw [List.length_cons, show p + (l.length + 1) = p + 1 + l.length by omega]
      exact h.zero
    · rcases List.mem_cons.mp hb with rfl | hb
      · exact hne
      · exact h.nonzero b hb

/-- A suffix of a string. -/
theorem CString.drop (h : CString buf p (xs ++ ys)) : CString buf (p + xs.length) ys := by
  induction xs generalizing p with
  | nil => exact h
  | cons x xs ih =>
    rw [List.length_cons, show p + (xs.length + 1) = p + 1 + xs.length by omega]
    exact ih (cstring_cons.mp h).2.2

/-- A zero stored into a string cuts it in two. -/
theorem CString.cut (h : CString buf p (xs ++ c :: ys)) :
    CString (Function.update buf (p + xs.length) 0) p xs ∧
      CString (Function.update buf (p + xs.length) 0) (p + xs.length + 1) ys := by
  constructor
  · refine ⟨fun i hi => ?_, Function.update_self .., fun b hb => h.nonzero b (List.mem_append_left _ hb)⟩
    rw [Function.update_of_ne (by omega), h.byte i (by rw [List.length_append]; omega), List.getElem_append_left hi]
  · have hrest := (cstring_cons.mp h.drop).2.2
    refine ⟨fun i hi => ?_, ?_, hrest.nonzero⟩
    · rw [Function.update_of_ne (by omega)]
      exact hrest.byte i hi
    · rw [Function.update_of_ne (by omega)]
      exact hrest.zero

theorem cstr_bytes (h : CString buf p l) (hl : l.length < 1023) : (cstr buf p).bytes = l := by
  have hall : ∀ {k p : Nat} {l : List UInt8}, CString buf p l → l.length < k →
      (bytesFrom buf k p).takeWhile (· ≠ 0) = l := by
    intro k
    induction k with
    | zero => exact fun _ hl => absurd hl (Nat.not_lt_zero _)
    | succ k ih =>
      intro p l h hl
      rw [bytesFrom]
      cases l with
      | nil => simp [cstring_nil.mp h]
      | cons c l =>
        obtain ⟨hc, hne, hrest⟩ := cstring_cons.mp h
        rw [hc, List.takeWhile_cons_of_pos (by simpa using hne), ih hrest (Nat.lt_of_succ_lt_succ hl)]
  exact hall h hl

/-! ### The loops -/

theorem strncpy_spec (count : Nat) : ∀ {i : Nat} {dest : Nat → UInt8} {l : List UInt8},
    (bytesFrom src count i).takeWhile (· ≠ 0) = l →
    (∀ j (h : j < l.length), strncpy src count i dest (i + j) = l[j]) ∧
      (l.length < count → strncpy src count i dest (i + l.length) = 0) ∧
      ∀ j < i, strncpy src count i dest j = dest j := by
  induction count with
  | zero =>
    rintro i dest l rfl
    exact ⟨fun j h => absurd h (Nat.not_lt_zero _), fun h => absurd h (Nat.not_lt_zero _), fun _ _ => rfl⟩
  | succ count ih =>
    intro i dest l hl
    unfold strncpy
    dsimp only
    rw [bytesFrom] at hl
    by_cases hzero : src i = 0
    · rw [List.takeWhile_cons_of_neg (by simpa using hzero)] at hl
      subst hl
      rw [if_pos hzero]
      refine ⟨fun j h => absurd h (Nat.not_lt_zero _), fun _ => ?_, fun j hj => ?_⟩
      · simp [hzero]
      · rw [if_neg (by omega), Function.update_of_ne (by omega)]
    · rw [List.takeWhile_cons_of_pos (by simpa using hzero)] at hl
      subst hl
      rw [if_neg hzero]
      obtain ⟨hbytes, hend, hkeep⟩ := @ih (i + 1) (Function.update dest i (src i)) _ rfl
      refine ⟨fun j hj => ?_, fun hlt => ?_, fun j hj => ?_⟩
      · cases j with
        | zero =>
          have hfirst := hkeep i (Nat.lt_succ_self i)
          rw [Function.update_self] at hfirst
          exact hfirst
        | succ j =>
          rw [show i + (j + 1) = i + 1 + j by omega, hbytes j (Nat.lt_of_succ_lt_succ hj)]
          rfl
      · rw [List.length_cons, Nat.add_right_comm i 1] at *
        exact hend (Nat.lt_of_succ_lt_succ hlt)
      · rw [hkeep j (by omega), Function.update_of_ne (by omega)]

theorem bytesFrom_length (count : Nat) : ∀ {i : Nat}, (bytesFrom src count i).length = count := by
  induction count with
  | zero => exact rfl
  | succ count ih => exact congrArg (· + 1) ih

/-- `buf` after the copy. -/
theorem copied_text (dest : Nat → UInt8) : CString (Function.update (strncpy src 1022 0 dest) 1022 0) 0
    ((bytesFrom src 1022 0).takeWhile (· ≠ 0)) := by
  obtain ⟨hbytes, hend, -⟩ := @strncpy_spec src 1022 0 dest _ rfl
  rw [Nat.zero_add] at hend
  have hle : ((bytesFrom src 1022 0).takeWhile (· ≠ 0)).length ≤ 1022 :=
    Nat.le_trans (List.takeWhile_sublist _).length_le (Nat.le_of_eq (bytesFrom_length 1022))
  refine ⟨fun i hi => ?_, ?_, fun b hb => by simpa using List.mem_takeWhile_imp hb⟩
  · rw [Function.update_of_ne (by omega)]
    exact hbytes i hi
  · rw [Nat.zero_add]
    by_cases hfull : ((bytesFrom src 1022 0).takeWhile (· ≠ 0)).length = 1022
    · rw [hfull]
      exact Function.update_self ..
    · rw [Function.update_of_ne (by omega)]
      exact hend (by omega)

theorem strchr_spec (hc : c ≠ 0) : ∀ {k p : Nat} {l : List UInt8}, CString buf p l → l.length < k →
    strchr buf c k p = if c ∈ l then some (p + (l.takeWhile (· ≠ c)).length) else none := by
  intro k
  induction k with
  | zero => exact fun _ hl => absurd hl (Nat.not_lt_zero _)
  | succ k ih =>
    intro p l h hl
    unfold strchr
    cases l with
    | nil =>
      have hzero := cstring_nil.mp h
      rw [if_neg (by rw [hzero]; exact Ne.symm hc), if_pos hzero]
      rfl
    | cons x l =>
      obtain ⟨hx, hne, hrest⟩ := cstring_cons.mp h
      rw [hx, if_neg hne]
      by_cases hxc : x = c
      · simp [hxc]
      · have hcx : ¬ c = x := fun heq => hxc heq.symm
        rw [if_neg hxc, ih hrest (Nat.lt_of_succ_lt_succ hl)]
        simp only [List.mem_cons, hcx, false_or]
        rw [List.takeWhile_cons_of_pos (by simpa using hxc), List.length_cons]
        congr 2
        omega

theorem not_isBlank_zero : isBlank 0 = false := rfl

theorem skipBlanks_spec : ∀ {k p : Nat} {l : List UInt8}, CString buf p l → l.length < k →
    skipBlanks buf k p = p + (l.takeWhile isBlank).length := by
  intro k
  induction k with
  | zero => exact fun _ hl => absurd hl (Nat.not_lt_zero _)
  | succ k ih =>
    intro p l h hl
    unfold skipBlanks
    cases l with
    | nil =>
      rw [cstring_nil.mp h, not_isBlank_zero]
      rfl
    | cons x l =>
      obtain ⟨hx, -, hrest⟩ := cstring_cons.mp h
      rw [hx]
      cases hblank : isBlank x with
      | false => rw [List.takeWhile_cons_of_neg (by simp [hblank])]; rfl
      | true =>
        rw [if_pos rfl, ih hrest (Nat.lt_of_succ_lt_succ hl), List.takeWhile_cons_of_pos hblank, List.length_cons]
        omega

theorem basename_cons (x : UInt8) (l : List UInt8) :
    basename (x :: l) = if 47 ∈ l then basename l else if x = 47 then l else x :: l := by
  unfold basename
  induction l using List.reverseRecOn with
  | nil =>
    rw [← List.nil_append [x], List.rtakeWhile_concat]
    by_cases hx : x = 47
    · simp [hx]
    · simp [hx]
  | append_singleton l y ih =>
    rw [← List.cons_append, List.rtakeWhile_concat, List.rtakeWhile_concat, ih]
    by_cases hy : y = 47
    · simp [hy]
    · have hy' : ¬ 47 = y := fun heq => hy heq.symm
      simp only [ne_eq, hy, not_false_eq_true, decide_true, if_true, List.mem_append, List.mem_singleton, hy', or_false]
      split
      · rfl
      · split <;> rfl

theorem basename_length (l : List UInt8) : (basename l).length ≤ l.length :=
  (List.rtakeWhile_suffix _ l).length_le

theorem basename_of_no_slash (h : 47 ∉ l) : basename l = l :=
  List.rtakeWhile_eq_self_iff.mpr fun x hx => by
    have hne : x ≠ 47 := fun heq => h (heq ▸ hx)
    simpa using hne

theorem scanName_spec : ∀ {k p q : Nat} {l : List UInt8}, CString buf p l → l.length < k →
    scanName buf k p q = (p + (l.takeWhile (!isBlank ·)).length,
      if 47 ∈ l.takeWhile (!isBlank ·) then
        p + ((l.takeWhile (!isBlank ·)).length - (basename (l.takeWhile (!isBlank ·))).length)
      else q) := by
  intro k
  induction k with
  | zero => exact fun _ hl => absurd hl (Nat.not_lt_zero _)
  | succ k ih =>
    intro p q l h hl
    unfold scanName
    cases l with
    | nil =>
      rw [cstring_nil.mp h, if_neg (by simp)]
      rfl
    | cons x l =>
      obtain ⟨hx, hne, hrest⟩ := cstring_cons.mp h
      rw [hx]
      cases hblank : isBlank x with
      | true =>
        rw [if_neg (by simp), List.takeWhile_cons_of_neg (by simp [hblank])]
        rfl
      | false =>
        rw [if_pos ⟨hne, by simp⟩, ih hrest (Nat.lt_of_succ_lt_succ hl), List.takeWhile_cons_of_pos (by simp [hblank])]
        generalize l.takeWhile (!isBlank ·) = w
        have hlen := basename_length w
        rw [basename_cons, List.length_cons]
        simp only [List.mem_cons]
        by_cases hslash : 47 ∈ w
        · simp only [hslash, or_true, if_true, Prod.mk.injEq]
          omega
        · by_cases hx47 : x = 47
          · simp [hslash, hx47]
            omega
          · have hx47' : ¬ 47 = x := fun heq => hx47 heq.symm
            simp only [hslash, hx47', or_false, if_false, hx47, Prod.mk.injEq, and_true]
            omega

/-! ### The line -/

theorem bytesFrom_shift (d count : Nat) : ∀ {i : Nat},
    bytesFrom (fun i => src (i + d)) count i = bytesFrom src count (i + d) := by
  induction count with
  | zero => exact rfl
  | succ count ih =>
    intro i
    rw [bytesFrom, bytesFrom, ih, Nat.add_right_comm]

/-- The pointer that `i_name` ends up with. -/
theorem CString.basename (h : CString buf p l) : CString buf (p + (l.length - (basename l).length)) (Exec.basename l) := by
  obtain ⟨t, ht⟩ := List.rtakeWhile_suffix (· ≠ (47 : UInt8)) l
  have hsplit : t ++ Exec.basename l = l := ht
  have hlen := congrArg List.length hsplit
  rw [List.length_append] at hlen
  rw [← hsplit] at h
  have hdrop := h.drop
  rwa [show l.length - (Exec.basename l).length = t.length by omega]

/-- The part of the line from the first character that is not blank on. -/
theorem scanName_fst (h : CString buf p l) (hl : l.length < 1023) :
    scanName buf 1023 p p = (p + (l.takeWhile (!isBlank ·)).length,
      p + ((l.takeWhile (!isBlank ·)).length - (Exec.basename (l.takeWhile (!isBlank ·))).length)) := by
  rw [scanName_spec h hl]
  split
  · rfl
  · next hslash =>
    rw [basename_of_no_slash hslash, Nat.sub_self]
    rfl

theorem split_at (h : c ∈ l) : ∃ r, l = l.takeWhile (· ≠ c) ++ c :: r := by
  induction l with
  | nil => cases h
  | cons x l ih =>
    by_cases hx : x = c
    · exact ⟨l, by simp [hx]⟩
    · obtain ⟨r, hr⟩ := ih ((List.mem_cons.mp h).resolve_left fun heq => hx heq.symm)
      refine ⟨r, ?_⟩
      rw [List.takeWhile_cons_of_pos (by simpa using hx), List.cons_append, ← hr]

/-- `parseLine` finds what the line means. -/
theorem parseLine_spec (dest block : Nat → UInt8) :
    match interpreter block with
    | none => parseLine dest block = none
    | some i => ∃ line, parseLine dest block = some line ∧ (cstr line.buf line.interp).bytes = i.path ∧
        (cstr line.buf line.iName).bytes = Exec.basename i.path ∧
        line.iArg.map (fun p => (cstr line.buf p).bytes) = i.rest := by
  have htext := @copied_text (fun i => block (i + 2)) dest
  have hlen := @bytesFrom_length (fun i => block (i + 2)) 1022 0
  unfold interpreter parseLine
  rw [bytesFrom_shift] at htext hlen
  rw [Nat.zero_add] at htext hlen
  have hle := (List.takeWhile_sublist (p := fun b => decide (b ≠ 0)) (l := bytesFrom block 1022 2)).length_le
  rw [hlen] at hle
  generalize (bytesFrom block 1022 2).takeWhile (· ≠ 0) = text at htext hle ⊢
  generalize Function.update (strncpy (fun i => block (i + 2)) 1022 0 dest) 1022 0 = buf at htext ⊢
  dsimp only
  rw [strchr_spec (by decide) htext (by omega)]
  by_cases hline : 10 ∈ text
  · rw [if_pos hline, if_pos hline]
    dsimp only
    obtain ⟨tail, htail⟩ := split_at hline
    have hlineLe := (List.takeWhile_sublist (p := fun b => decide (b ≠ 10)) (l := text)).length_le
    rw [htail] at htext
    -- the newline becomes a zero
    have hcut := htext.cut.1
    rw [Nat.zero_add] at hcut ⊢
    generalize text.takeWhile (· ≠ 10) = line at hcut hlineLe ⊢
    generalize Function.update buf line.length 0 = buf at hcut ⊢
    have hskip := skipBlanks_spec hcut (show line.length < 1023 by omega)
    rw [hskip]
    have hbodyLe := (List.dropWhile_sublist (p := isBlank) (l := line)).length_le
    rw [← List.takeWhile_append_dropWhile (p := isBlank) (l := line)] at hcut
    have hbody := hcut.drop
    generalize 0 + (line.takeWhile isBlank).length = interp at hbody ⊢
    generalize line.dropWhile isBlank = body at hbody hbodyLe ⊢
    cases body with
    | nil => rw [if_pos rfl, if_pos (cstring_nil.mp hbody)]
    | cons x xs =>
      obtain ⟨hx, hne, -⟩ := cstring_cons.mp hbody
      rw [if_neg (List.cons_ne_nil x xs), if_neg (by rw [hx]; exact hne), scanName_fst hbody (by omega)]
      generalize x :: xs = body at hbody hbodyLe ⊢
      have hpathLe := (List.takeWhile_sublist (p := (!isBlank ·)) (l := body)).length_le
      rw [← List.takeWhile_append_dropWhile (p := (!isBlank ·)) (l := body)] at hbody
      have hlens := congrArg List.length (List.takeWhile_append_dropWhile (p := (!isBlank ·)) (l := body))
      rw [List.length_append] at hlens
      have hafter := hbody.drop
      generalize body.takeWhile (!isBlank ·) = path at hbody hafter hlens ⊢
      generalize body.dropWhile (!isBlank ·) = after at hbody hafter hlens ⊢
      have hbaseLe := basename_length path
      dsimp only
      cases after with
      | nil =>
        rw [List.append_nil] at hbody
        rw [if_pos (cstring_nil.mp hafter)]
        refine ⟨_, rfl, cstr_bytes hbody (by omega), cstr_bytes hbody.basename (by omega), rfl⟩
      | cons y rest =>
        obtain ⟨hy, hyne, -⟩ := cstring_cons.mp hafter
        rw [if_neg (by rw [hy]; exact hyne)]
        -- the blank becomes one too
        obtain ⟨hpath, hrest⟩ := hbody.cut
        rw [List.length_cons] at hlens
        refine ⟨_, rfl, cstr_bytes hpath (by omega), cstr_bytes hpath.basename (by omega), ?_⟩
        exact congrArg some (cstr_bytes hrest (by omega))
  · rw [if_neg hline, if_neg hline]

end Strings

/-! ## The arguments of the interpreter -/

theorem CStr.ext {c d : CStr} (h : c.bytes = d.bytes) : c = d := by
  cases c
  cases h
  rfl

/-- `strs` is what an interpreter should be given. -/
def Given (i : Interp) (filename : CStr) (argv strs : List CStr) : Prop :=
  strs.map CStr.bytes = basename i.path :: (i.rest.toList ++ filename.bytes :: argv.tail.map CStr.bytes)

/-- The strings of the calls after the one for the environment, in the order in which they lie. -/
def laidArgs (calls : List Copy) : List CStr := calls.tail.reverse.flatMap Copy.argv

section Calls

variable {argv envp : List CStr} {filename : CStr} {line : Line}

/-- `i_name`, `i_arg` and `filename`, and the arguments of the script. -/
def spliced (filename : CStr) (argv : List CStr) (line : Line) : List CStr :=
  cstr line.buf line.iName :: ((line.iArg.map (cstr line.buf)).toList ++ filename :: argv.tail)

theorem spliceCalls_argc (argc envc : Int) : (spliceCalls argc envc argv envp filename line).1 =
    argc + 1 + (line.iArg.map (cstr line.buf)).toList.length := by
  unfold spliceCalls
  dsimp only
  cases line.iArg with
  | none => simp
  | some q => simp

theorem spliceCalls_laid (argc envc : Int) : laidArgs (spliceCalls argc envc argv envp filename line).2 =
    spliced filename argv line := by
  unfold spliceCalls spliced laidArgs
  dsimp only
  cases line.iArg <;> simp

theorem spliceCalls_env (argc envc : Int) : ∃ calls, (spliceCalls argc envc argv envp filename line).2 =
    ⟨envc, envp, 0⟩ :: calls := by
  unfold spliceCalls
  dsimp only
  cases line.iArg <;> exact ⟨_, rfl⟩

theorem laidBy_eq (call : Copy) (calls : List Copy) :
    laidBy (call :: calls) = flat (laidArgs (call :: calls) ++ call.argv) := by
  rw [laidBy_cons, flat_append]
  congr 1
  unfold laidBy laidArgs flat
  rw [List.tail_cons, List.flatMap_assoc]

theorem spliceCalls_counted : ∀ call ∈ (spliceCalls argv.length envp.length argv envp filename line).2,
    call.Counted := by
  have htail : Int.toNat ((argv.length : Int) - 1) = argv.tail.length := by
    rw [List.length_tail]
    omega
  unfold spliceCalls
  dsimp only
  cases line.iArg with
  | none =>
    intro call hcall
    simp only [List.cons_append, List.nil_append, List.mem_cons, List.not_mem_nil, or_false] at hcall
    rcases hcall with rfl | rfl | rfl | rfl
    · rfl
    · exact htail
    · rfl
    · rfl
  | some q =>
    intro call hcall
    simp only [List.cons_append, List.nil_append, List.mem_cons, List.not_mem_nil, or_false] at hcall
    rcases hcall with rfl | rfl | rfl | rfl | rfl
    · rfl
    · exact htail
    · rfl
    · rfl
    · rfl

theorem spliced_given {i : Interp} (hname : (cstr line.buf line.iName).bytes = basename i.path)
    (harg : line.iArg.map (fun p => (cstr line.buf p).bytes) = i.rest) :
    Given i filename argv (spliced filename argv line) := by
  unfold Given spliced
  rw [List.map_cons, List.map_append, List.map_cons, hname, ← harg]
  congr 2
  cases line.iArg <;> rfl

/-- There is one such list. -/
theorem given_unique {i : Interp} {strs strs' : List CStr} (h : Given i filename argv strs)
    (h' : Given i filename argv strs') : strs = strs' :=
  List.map_injective_iff.mpr (fun _ _ => CStr.ext) (h.trans h'.symm)

end Calls

/-- The interpreter is started with the right count and the right strings. -/
structure ScriptStarted (file : ExeFile) (n : Nat) (current : Task) (executable : Option Nat) (codeLimit : Nat)
    (i : Interp) (filename : CStr) (argv envp : List CStr) (argc : Int) (calls : List Copy) (a : Args) : Prop where
  count : argc = (laidArgs calls).length
  stack : ∃ strs, Given i filename argv strs ∧
    Post (newStack file n { current with executable } codeLimit argc.toNat envp.length a.p a)
      (fun r => r.2.task n = some (newTask current executable codeLimit) ∧
        Decodes (space file r.2 n (newTask current executable codeLimit)) r.1 (a.p.toNat + 0x3FE0000) strs envp)
      Oom

/-- For every script that names an interpreter: the interpreter is started with as many arguments as were laid,
and with the right ones, if and only if the script was given an `argv[0]`. -/
theorem script_started (file : ExeFile) {lo hi n : Nat} {page : Nat → Nat → UInt8} {files : Nat → Files}
    {fCount : Nat → UInt16} {w : World} {current : Task} (hlo : lowMem ≤ lo) (hhi : hi ≤ lowMem + pagingPages)
    (hreach : World.Reachable file lo hi page files fCount w) (hn : 1 ≤ n) (hrun : w.Running n current)
    (htable : ∃ d, d / 16 = n ∧ (w.kernel.mem.pgDir d).present = true) (fs : Seg) (executable : Option Nat)
    (codeLimit : Nat) (buf block : Nat → UInt8) {i : Interp} (hscript : interpreter block = some i)
    (filename : CStr) (argv envp : List CStr) :
    ∃ line, parseLine buf block = some line ∧ ∀ argc calls,
      spliceCalls argv.length envp.length argv envp filename line = (argc, calls) →
      (size calls < argTop → pagesFor (size calls) ≤ freePages w.kernel.mem →
        ∃ a, (Args.start w.kernel.mem fs).layStrings calls = .ok (.ok a.p, a)) ∧
      ∀ p a, (Args.start w.kernel.mem fs).layStrings calls = .ok (.ok p, a) →
        (ScriptStarted file n current executable codeLimit i filename argv envp argc calls a ↔ argv ≠ []) := by
  have hparse := parseLine_spec buf block
  rw [hscript] at hparse
  obtain ⟨line, hline, -, hname, harg⟩ := hparse
  refine ⟨line, hline, ?_⟩
  rintro argc calls hsplice
  have hargc := @spliceCalls_argc argv envp filename line argv.length envp.length
  have hlaidArgs := @spliceCalls_laid argv envp filename line argv.length envp.length
  obtain ⟨rest, henv⟩ := @spliceCalls_env argv envp filename line argv.length envp.length
  have hcounted := @spliceCalls_counted argv envp filename line
  rw [hsplice] at hargc hlaidArgs henv hcounted
  dsimp only at hargc hlaidArgs henv hcounted
  have hcount : argc = (laidArgs calls).length ↔ argv ≠ [] := by
    rw [hargc, hlaidArgs, spliced, List.length_cons, List.length_append, List.length_cons, List.length_tail]
    cases argv with
    | nil => simp; omega
    | cons c cs => simp; omega
  refine ⟨layStrings_fits hcounted, fun p a hlay => ⟨fun h => hcount.mp h.count, fun hne => ?_⟩⟩
  have hlen := hcount.mpr hne
  refine ⟨hlen, spliced filename argv line, spliced_given hname harg, ?_⟩
  have hslots : Slots lo w :=
    invariant_of_run (fun _ _ hslots hstep => hstep.slots hslots) (boot_slots hlo hhi) hreach
  obtain ⟨hlaid, -⟩ := laid_of_done hcounted hlay
  rw [henv, laidBy_eq, ← henv, hlaidArgs] at hlaid
  have htoNat : argc.toNat = (spliced filename argv line).length := by
    rw [← hlaidArgs]
    omega
  rw [← List.append_nil (_ ++ _)] at hlaid
  rw [htoNat]
  exact newStack_spec executable codeLimit hlo hslots.sys.layout (userTask_of_slots hslots hn hrun htable)
    (copyCalls_owned hslots.sys.inv (layStrings_done hlay).1) hlaid

/-! ### A script without arguments -/

/-- `#!/bin/sh` -/
def shBlock (i : Nat) : UInt8 := [35, 33, 47, 98, 105, 110, 47, 115, 104, 10].getD i 0

/-- `/bin/sh` -/
def shInterp : Interp := ⟨[47, 98, 105, 110, 47, 115, 104], none⟩

/-- `sh` -/
def sh : CStr := ⟨[115, 104], by simp⟩

theorem interpreter_shBlock : interpreter shBlock = some shInterp := by decide +kernel

theorem parseLine_shBlock (buf : Nat → UInt8) : ∃ line, parseLine buf shBlock = some line ∧ line.iArg = none ∧
    ∀ filename argv, spliced filename argv line = sh :: filename :: argv.tail := by
  have hparse := parseLine_spec buf shBlock
  rw [interpreter_shBlock] at hparse
  obtain ⟨line, hline, -, hname, harg⟩ := hparse
  have hnone : line.iArg = none := Option.map_eq_none_iff.mp harg
  have hsh : cstr line.buf line.iName = sh := CStr.ext (hname.trans (by decide))
  refine ⟨line, hline, hnone, fun filename argv => ?_⟩
  unfold spliced
  rw [hnone, hsh]
  rfl

/-- `execve("a", {NULL}, {"aa", NULL})`: two arguments are laid and one is counted. The interpreter finds the
name of the script in its environment, and does not find its environment. -/
theorem script_miscounted : ∃ (w : World) (line : Line) (argc : Int) (calls : List Copy) (a : Args),
    w.Running 1 child ∧ interpreter shBlock = some shInterp ∧ parseLine (fun _ => 0) shBlock = some line ∧
    spliceCalls 0 1 [] [letters 2] (letters 1) line = (argc, calls) ∧
    (Args.start w.kernel.mem .user).layStrings calls = .ok (.ok a.p, a) ∧
    ¬ ScriptStarted noFile 1 child none 4096 shInterp (letters 1) [] [letters 2] argc calls a ∧
    argc = 1 ∧ laidArgs calls = [sh, letters 1] ∧
    Post (newStack noFile 1 child 4096 argc.toNat 1 a.p a)
      (fun r => r.2.task 1 = some (newTask child none 4096) ∧
        Decodes (space noFile r.2 1 (newTask child none 4096)) r.1 (a.p.toNat + 0x3FE0000) [sh] [letters 1])
      Oom := by
  obtain ⟨w, hreach, hrun, htable, hfree⟩ := reach_child
  obtain ⟨line, hline, hnone, hspliced⟩ := parseLine_shBlock fun _ => 0
  generalize hsplice : spliceCalls 0 1 [] [letters 2] (letters 1) line = r
  obtain ⟨argc, calls⟩ := r
  have hargc := @spliceCalls_argc [] [letters 2] (letters 1) line 0 1
  have hlaidArgs := @spliceCalls_laid [] [letters 2] (letters 1) line 0 1
  obtain ⟨rest, henv⟩ := @spliceCalls_env [] [letters 2] (letters 1) line 0 1
  have hcounted : ∀ call ∈ (spliceCalls 0 1 [] [letters 2] (letters 1) line).2, call.Counted :=
    @spliceCalls_counted [] [letters 2] (letters 1) line
  rw [hsplice] at hargc hlaidArgs henv hcounted
  rw [hspliced] at hlaidArgs
  rw [hnone] at hargc
  change argc = 1 at hargc
  dsimp only at hlaidArgs henv hcounted
  have hbytes : laidBy calls = flat ([sh] ++ [letters 1] ++ [letters 2]) := by
    rw [henv, laidBy_eq, ← henv, hlaidArgs]
    rfl
  have hsize : size calls = 8 := by
    unfold size
    rw [hbytes]
    rfl
  obtain ⟨a, ha⟩ := @layStrings_fits w.kernel.mem .user calls hcounted (by rw [hsize]; decide)
    (Nat.le_trans (by rw [hsize]; decide) hfree)
  refine ⟨w, line, argc, calls, a, hrun, interpreter_shBlock, hline, hsplice, ha, fun hstarted => ?_, hargc,
    hlaidArgs, ?_⟩
  · have hcount := hstarted.count
    rw [hargc, hlaidArgs] at hcount
    cases hcount
  · have hslots : Slots 1024 w :=
      invariant_of_run (fun _ _ hslots hstep => hstep.slots hslots) (boot_slots (by decide) (by decide)) hreach
    obtain ⟨hlaid, -⟩ := laid_of_done hcounted ha
    rw [hbytes] at hlaid
    rw [hargc]
    exact @newStack_spec noFile 1024 1 w.kernel.mem _ child a [sh] [letters 1] [letters 2] none 4096 (by decide)
      hslots.sys.layout (userTask_of_slots hslots (by decide) hrun ⟨16, rfl, htable⟩)
      (copyCalls_owned hslots.sys.inv (layStrings_done ha).1) hlaid

/-- With `argv[0]` the script gets what it should. -/
theorem script_started_sh : ∃ (w : World) (line : Line) (argc : Int) (calls : List Copy) (a : Args),
    parseLine (fun _ => 0) shBlock = some line ∧
    spliceCalls 1 1 [letters 1] [letters 2] (letters 1) line = (argc, calls) ∧
    (Args.start w.kernel.mem .user).layStrings calls = .ok (.ok a.p, a) ∧
    ScriptStarted noFile 1 child none 4096 shInterp (letters 1) [letters 1] [letters 2] argc calls a := by
  obtain ⟨w, hreach, hrun, htable, hfree⟩ := reach_child
  obtain ⟨line, hline, hstart⟩ := script_started noFile (by decide) (by decide) hreach (by decide) hrun
    ⟨16, rfl, htable⟩ .user none 4096 (fun _ => 0) shBlock interpreter_shBlock (letters 1) [letters 1] [letters 2]
  obtain ⟨line', hline', hnone, hspliced⟩ := parseLine_shBlock fun _ => 0
  have hsame : line' = line := Option.some.inj (hline'.symm.trans hline)
  subst hsame
  generalize hsplice : spliceCalls 1 1 [letters 1] [letters 2] (letters 1) line' = r
  obtain ⟨argc, calls⟩ := r
  obtain ⟨hfits, hdone⟩ := hstart argc calls hsplice
  have hlaidArgs := @spliceCalls_laid [letters 1] [letters 2] (letters 1) line' 1 1
  obtain ⟨rest, henv⟩ := @spliceCalls_env [letters 1] [letters 2] (letters 1) line' 1 1
  rw [hsplice] at hlaidArgs henv
  rw [hspliced] at hlaidArgs
  dsimp only at hlaidArgs henv
  have hsize : size calls = 8 := by
    unfold size
    rw [henv, laidBy_eq, ← henv, hlaidArgs]
    rfl
  obtain ⟨a, ha⟩ := hfits (by rw [hsize]; decide) (Nat.le_trans (by rw [hsize]; decide) hfree)
  exact ⟨w, line', argc, calls, a, hline, hsplice, ha, (hdone _ a ha).mpr (List.cons_ne_nil _ _)⟩

end Linux011.Exec
