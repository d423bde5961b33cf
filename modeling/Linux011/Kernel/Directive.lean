import Mathlib.Data.List.TakeWhile
import Linux011.Kernel.Number

/-!
# The directives of a format

`scan` is where a directive has its conversion; it does not depend on the arguments. How many arguments a
directive takes is a matter of its text too, and neither depends on what follows in the format.
-/

namespace Linux011.Kernel

namespace Vsprintf

/-! ## Where the conversion stands -/

def isFlag (c : Char) : Bool := c == '-' || c == '+' || c == ' ' || c == '#' || c == '0'

/-- Behind the precision. -/
def scanPrecision : List Char → List Char
  | '.' :: fmt => fmt.dropWhile isDigit
  | fmt => fmt

/-- From behind the `%` to the conversion. -/
def scan (fmt : List Char) : List Char := skipQualifier (scanPrecision ((fmt.dropWhile isFlag).dropWhile isDigit))

theorem processFlags_flag {c : Char} (hc : isFlag c = true) (flags : Flags) :
    ∃ flags', ∀ fmt, processFlags (c :: fmt) flags = processFlags fmt flags' := by
  unfold isFlag at hc
  simp only [Bool.or_eq_true, beq_iff_eq] at hc
  obtain (((rfl | rfl) | rfl) | rfl) | rfl := hc
  · exact ⟨_, fun _ => rfl⟩
  · exact ⟨_, fun _ => rfl⟩
  · exact ⟨_, fun _ => rfl⟩
  · exact ⟨_, fun _ => rfl⟩
  · exact ⟨_, fun _ => rfl⟩

theorem processFlags_other {c : Char} (hc : isFlag c = false) (fmt : List Char) (flags : Flags) :
    processFlags (c :: fmt) flags = (flags, c :: fmt) := by
  unfold isFlag at hc
  simp only [Bool.or_eq_false_iff, beq_eq_false_iff_ne] at hc
  obtain ⟨⟨⟨⟨h1, h2⟩, h3⟩, h4⟩, h5⟩ := hc
  unfold processFlags
  split
  · next h => exact absurd (List.cons.inj h).1 h1
  · next h => exact absurd (List.cons.inj h).1 h2
  · next h => exact absurd (List.cons.inj h).1 h3
  · next h => exact absurd (List.cons.inj h).1 h4
  · next h => exact absurd (List.cons.inj h).1 h5
  · rfl

theorem processFlags_snd (fmt : List Char) (flags : Flags) : (processFlags fmt flags).2 = fmt.dropWhile isFlag := by
  induction fmt generalizing flags with
  | nil => rfl
  | cons c fmt ih =>
    cases hc : isFlag c with
    | true =>
      obtain ⟨flags', hstep⟩ := processFlags_flag hc flags
      rw [hstep, ih, List.dropWhile_cons_of_pos hc]
    | false => rw [processFlags_other hc, List.dropWhile_cons_of_neg (by simp [hc])]

theorem skipAtoi_snd (fmt : List Char) (i : Int32) : (skipAtoi fmt i).2 = fmt.dropWhile isDigit := by
  induction fmt generalizing i with
  | nil => rfl
  | cons c fmt ih =>
    unfold skipAtoi
    split
    · next hc => rw [ih, List.dropWhile_cons_of_pos hc]
    · next hc => rw [List.dropWhile_cons_of_neg hc]

theorem getFieldWidth_fmt (flags : Flags) (fmt : List Char) (args : Args) :
    (getFieldWidth flags fmt args).fmt = fmt.dropWhile isDigit := by
  unfold getFieldWidth
  split
  · rfl
  · next c rest =>
    split
    · exact skipAtoi_snd _ _
    · next hc =>
      rw [List.dropWhile_cons_of_neg hc]
      split
      · split
        · rfl
        · rfl
      · rfl

/-- No precision is negative. -/
def Directive.clamp (d : Directive) : Directive := if d.precision < 0 then { d with precision := 0 } else d

theorem Directive.clamp_fmt (d : Directive) : d.clamp.fmt = d.fmt := by
  unfold Directive.clamp
  split
  · rfl
  · rfl

theorem Directive.clamp_append (d : Directive) (w : List Char) :
    ({ d with fmt := d.fmt ++ w } : Directive).clamp = { d.clamp with fmt := d.clamp.fmt ++ w } := by
  rw [d.clamp_fmt]
  unfold Directive.clamp
  simp only
  split
  · rfl
  · rfl

theorem Directive.clamp_args (d : Directive) (args : Args) :
    ({ d with args } : Directive).clamp = { d.clamp with args } := by
  unfold Directive.clamp
  simp only
  split
  · rfl
  · rfl

theorem getPrecision_digit {c : Char} (hc : isDigit c = true) (d : Directive) (fmt : List Char) :
    getPrecision d (c :: fmt) =
      ({ d with precision := (skipAtoi (c :: fmt) 0).1, fmt := (skipAtoi (c :: fmt) 0).2 } : Directive).clamp :=
  congrArg Directive.clamp (if_pos hc)

theorem getPrecision_star (d : Directive) (fmt : List Char) : getPrecision d ('*' :: fmt) =
    ({ d with precision := d.args 0, fmt := '*' :: fmt, args := d.args.tail } : Directive).clamp := rfl

theorem getPrecision_other {c : Char} (hc : ¬ isDigit c = true) (hstar : c ≠ '*') (d : Directive) (fmt : List Char) :
    getPrecision d (c :: fmt) = ({ d with fmt := c :: fmt } : Directive).clamp :=
  congrArg Directive.clamp ((if_neg hc).trans (if_neg hstar))

theorem getPrecision_fmt (d : Directive) (fmt : List Char) : (getPrecision d fmt).fmt = fmt.dropWhile isDigit := by
  cases fmt with
  | nil => exact Directive.clamp_fmt _
  | cons c rest =>
    by_cases hdigit : isDigit c = true
    · rw [getPrecision_digit hdigit, Directive.clamp_fmt]
      exact skipAtoi_snd _ _
    · rw [List.dropWhile_cons_of_neg hdigit]
      by_cases hstar : c = '*'
      · rw [hstar, getPrecision_star, Directive.clamp_fmt]
      · rw [getPrecision_other hdigit hstar, Directive.clamp_fmt]

theorem scanPrecision_other {fmt : List Char} (h : ∀ rest, fmt ≠ '.' :: rest) : scanPrecision fmt = fmt := by
  unfold scanPrecision
  split
  · next rest => exact absurd rfl (h rest)
  · rfl

theorem atPrecision_dot {d : Directive} {fmt : List Char} (h : d.fmt = '.' :: fmt) :
    atPrecision d = getPrecision d fmt := by
  unfold atPrecision
  rw [h]
  rfl

theorem atPrecision_other {d : Directive} (h : ∀ rest, d.fmt ≠ '.' :: rest) : atPrecision d = d := by
  unfold atPrecision
  split
  · next rest hdot => exact absurd hdot (h rest)
  · rfl

theorem atPrecision_fmt (d : Directive) : (atPrecision d).fmt = scanPrecision d.fmt := by
  by_cases hdot : ∃ rest, d.fmt = '.' :: rest
  · obtain ⟨rest, hrest⟩ := hdot
    rw [atPrecision_dot hrest, getPrecision_fmt, hrest, scanPrecision]
  · rw [atPrecision_other fun rest h => hdot ⟨rest, h⟩, scanPrecision_other fun rest h => hdot ⟨rest, h⟩]

theorem directive_fmt (fmt : List Char) (args : Args) : (directive fmt args).fmt = scan fmt := by
  show skipQualifier (atPrecision _).fmt = _
  rw [atPrecision_fmt, getFieldWidth_fmt, processFlags_snd]
  rfl

theorem dropWhile_split {p : Char → Bool} (hp : p '%' = false) (l : List Char) :
    ∃ mid, l = mid ++ l.dropWhile p ∧ '%' ∉ mid := by
  refine ⟨l.takeWhile p, (List.takeWhile_append_dropWhile).symm, fun hmem => ?_⟩
  have htrue := List.mem_takeWhile_imp hmem
  rw [hp] at htrue
  cases htrue

theorem scanPrecision_split (l : List Char) : ∃ mid, l = mid ++ scanPrecision l ∧ '%' ∉ mid := by
  unfold scanPrecision
  split
  · next rest =>
    obtain ⟨mid, hmid, hno⟩ := dropWhile_split (p := isDigit) rfl rest
    refine ⟨'.' :: mid, congrArg ('.' :: ·) hmid, ?_⟩
    rw [List.mem_cons]
    rintro (h | h)
    · cases h
    · exact hno h
  · exact ⟨[], rfl, List.not_mem_nil⟩

theorem skipQualifier_split (l : List Char) : ∃ mid, l = mid ++ skipQualifier l ∧ '%' ∉ mid := by
  unfold skipQualifier
  split
  · exact ⟨[], rfl, List.not_mem_nil⟩
  · next c rest =>
    split
    · next hc =>
      refine ⟨[c], rfl, fun hmem => ?_⟩
      rw [List.mem_singleton] at hmem
      rw [← hmem] at hc
      revert hc
      decide
    · exact ⟨[], rfl, List.not_mem_nil⟩

/-- What stands between the width and the conversion. -/
theorem tail_split (l : List Char) : ∃ mid, l = mid ++ skipQualifier (scanPrecision l) ∧ '%' ∉ mid := by
  obtain ⟨a, ha, hna⟩ := scanPrecision_split l
  obtain ⟨b, hb, hnb⟩ := skipQualifier_split (scanPrecision l)
  refine ⟨a ++ b, ?_, by simp [hna, hnb]⟩
  rw [List.append_assoc, ← hb, ← ha]

/-- What stands before the conversion. -/
theorem scan_split (fmt : List Char) : ∃ mid, fmt = mid ++ scan fmt ∧ '%' ∉ mid := by
  obtain ⟨a, ha, hna⟩ := dropWhile_split (p := isFlag) rfl fmt
  obtain ⟨b, hb, hnb⟩ := dropWhile_split (p := isDigit) rfl (fmt.dropWhile isFlag)
  obtain ⟨e, he, hne⟩ := tail_split ((fmt.dropWhile isFlag).dropWhile isDigit)
  refine ⟨a ++ b ++ e, ?_, by simp [hna, hnb, hne]⟩
  unfold scan
  rw [List.append_assoc, List.append_assoc, ← he, ← hb, ← ha]

/-! ## A directive and what follows it -/

variable {u : List Char} (w : List Char)

theorem processFlags_append {flags : Flags} (h : (processFlags u flags).2 ≠ []) :
    processFlags (u ++ w) flags = ((processFlags u flags).1, (processFlags u flags).2 ++ w) := by
  induction u generalizing flags with
  | nil => exact absurd rfl h
  | cons c u ih =>
    cases hc : isFlag c with
    | true =>
      obtain ⟨flags', hstep⟩ := processFlags_flag hc flags
      rw [hstep] at h
      rw [List.cons_append, hstep, hstep, ih h]
    | false =>
      rw [List.cons_append, processFlags_other hc, processFlags_other hc]
      rfl

theorem skipAtoi_append {i : Int32} (h : (skipAtoi u i).2 ≠ []) :
    skipAtoi (u ++ w) i = ((skipAtoi u i).1, (skipAtoi u i).2 ++ w) := by
  induction u generalizing i with
  | nil => exact absurd rfl h
  | cons c u ih =>
    rw [List.cons_append]
    unfold skipAtoi at h ⊢
    split
    · next hc =>
      rw [if_pos hc] at h
      exact ih h
    · rfl

theorem getFieldWidth_append {flags : Flags} {args : Args} (h : (getFieldWidth flags u args).fmt ≠ []) :
    getFieldWidth flags (u ++ w) args =
      { getFieldWidth flags u args with fmt := (getFieldWidth flags u args).fmt ++ w } := by
  cases u with
  | nil => exact absurd rfl h
  | cons c u =>
    rw [List.cons_append]
    unfold getFieldWidth at h ⊢
    simp only at h ⊢
    split
    · next hc =>
      rw [if_pos hc] at h
      rw [← List.cons_append, skipAtoi_append w h]
    · split
      · split
        · rfl
        · rfl
      · rfl

theorem getPrecision_append {d : Directive} (h : (getPrecision d u).fmt ≠ []) :
    getPrecision d (u ++ w) = { getPrecision d u with fmt := (getPrecision d u).fmt ++ w } := by
  cases u with
  | nil => exact absurd (getPrecision_fmt d []) h
  | cons c u =>
    rw [List.cons_append]
    by_cases hdigit : isDigit c = true
    · have hleft : (skipAtoi (c :: u) 0).2 ≠ [] := by
        rwa [skipAtoi_snd, ← getPrecision_fmt d]
      rw [getPrecision_digit hdigit, getPrecision_digit hdigit, ← List.cons_append, skipAtoi_append w hleft]
      exact Directive.clamp_append { d with precision := _, fmt := _ } w
    · by_cases hstar : c = '*'
      · rw [hstar, getPrecision_star, getPrecision_star]
        exact Directive.clamp_append { d with precision := d.args 0, fmt := '*' :: u, args := d.args.tail } w
      · rw [getPrecision_other hdigit hstar, getPrecision_other hdigit hstar]
        exact Directive.clamp_append { d with fmt := c :: u } w

theorem skipQualifier_append (h : skipQualifier u ≠ []) : skipQualifier (u ++ w) = skipQualifier u ++ w := by
  cases u with
  | nil => exact absurd rfl h
  | cons c u =>
    show (if c = 'h' ∨ c = 'l' ∨ c = 'L' then u ++ w else c :: (u ++ w)) =
      (if c = 'h' ∨ c = 'l' ∨ c = 'L' then u else c :: u) ++ w
    split
    · rfl
    · rfl

theorem getPrecision_of_fmt (d : Directive) (x fmt : List Char) : getPrecision { d with fmt := x } fmt = getPrecision d fmt := by
  unfold getPrecision
  cases fmt with
  | nil => rfl
  | cons c fmt => rfl

theorem atPrecision_append {d : Directive} (h : scanPrecision d.fmt ≠ []) :
    atPrecision { d with fmt := d.fmt ++ w } = { atPrecision d with fmt := (atPrecision d).fmt ++ w } := by
  cases hfmt : d.fmt with
  | nil =>
    rw [hfmt] at h
    exact absurd rfl h
  | cons c rest =>
    by_cases hdot : c = '.'
    · rw [hdot] at hfmt
      have hafter : atPrecision { d with fmt := '.' :: rest ++ w } = getPrecision d (rest ++ w) :=
        (atPrecision_dot rfl).trans (getPrecision_of_fmt d _ _)
      rw [hdot, hafter, atPrecision_dot hfmt]
      apply getPrecision_append
      rwa [getPrecision_fmt, ← show scanPrecision ('.' :: rest) = rest.dropWhile isDigit from rfl, ← hfmt]
    · have hbefore : atPrecision d = d :=
        atPrecision_other fun l h => hdot (List.cons.inj (hfmt.symm.trans h)).1
      have hafter : atPrecision { d with fmt := c :: rest ++ w } = { d with fmt := c :: rest ++ w } :=
        atPrecision_other fun l h => hdot (List.cons.inj h).1
      rw [hbefore, hafter, hfmt]

/-- A directive that has its conversion does not depend on what follows. -/
theorem directive_append {args : Args} (h : scan u ≠ []) :
    directive (u ++ w) args = { directive u args with fmt := scan u ++ w } := by
  have hprecision : scanPrecision ((u.dropWhile isFlag).dropWhile isDigit) ≠ [] := by
    intro hnil
    unfold scan at h
    rw [hnil] at h
    exact h rfl
  have hdigits : (u.dropWhile isFlag).dropWhile isDigit ≠ [] := by
    intro hnil
    rw [hnil] at hprecision
    exact hprecision rfl
  have hflags : (processFlags u Flags.none).2 ≠ [] := by
    intro hnil
    rw [processFlags_snd] at hnil
    rw [hnil] at hdigits
    exact hdigits rfl
  have hwidth : (getFieldWidth (processFlags u Flags.none).1 (processFlags u Flags.none).2 args).fmt =
      (u.dropWhile isFlag).dropWhile isDigit := by rw [getFieldWidth_fmt, processFlags_snd]
  have hfmt := directive_fmt u args
  unfold directive at hfmt ⊢
  simp only at hfmt ⊢
  rw [processFlags_append w hflags]
  simp only
  rw [getFieldWidth_append w (by rw [hwidth]; exact hdigits), atPrecision_append w (by rw [hwidth]; exact hprecision)]
  rw [← hfmt] at h ⊢
  rw [skipQualifier_append w h]

/-! ## Where a scan stops -/

/-- A scan stops within `u`, or it goes on behind it. -/
structure Stops (f : List Char → List Char) : Prop where
  nil : f [] = []
  le : ∀ l, (f l).length ≤ l.length
  stops : ∀ u w, f u ≠ [] ∧ f (u ++ w) = f u ++ w ∨ f u = [] ∧ (f (u ++ w)).length ≤ w.length

theorem stops_dropWhile (p : Char → Bool) : Stops (List.dropWhile p) := by
  have hle : ∀ l : List Char, (l.dropWhile p).length ≤ l.length := fun l => (List.dropWhile_suffix p).length_le
  refine ⟨rfl, hle, fun u w => ?_⟩
  rw [List.dropWhile_append]
  cases hu : u.dropWhile p with
  | nil => exact Or.inr ⟨rfl, hle w⟩
  | cons c u' => exact Or.inl ⟨List.cons_ne_nil _ _, rfl⟩

/-- What a scan leaves is no longer than what it scans. -/
theorem length_le_of_split {f : List Char → List Char} {l : List Char} (h : ∃ mid, l = mid ++ f l ∧ '%' ∉ mid) :
    (f l).length ≤ l.length := by
  obtain ⟨mid, hmid, -⟩ := h
  have hlength := congrArg List.length hmid
  rw [List.length_append] at hlength
  omega

theorem stops_scanPrecision : Stops scanPrecision := by
  have hle : ∀ l, (scanPrecision l).length ≤ l.length := fun l => length_le_of_split (scanPrecision_split l)
  refine ⟨rfl, hle, fun u w => ?_⟩
  cases u with
  | nil => exact Or.inr ⟨rfl, hle w⟩
  | cons c u =>
    by_cases hdot : c = '.'
    · rw [hdot]
      exact (stops_dropWhile isDigit).stops u w
    · have hother : ∀ l, scanPrecision (c :: l) = c :: l := fun l =>
        scanPrecision_other fun rest h => hdot (List.cons.inj h).1
      rw [List.cons_append, hother, hother]
      exact Or.inl ⟨List.cons_ne_nil _ _, rfl⟩

theorem stops_skipQualifier : Stops skipQualifier := by
  have hle : ∀ l, (skipQualifier l).length ≤ l.length := fun l => length_le_of_split (skipQualifier_split l)
  refine ⟨rfl, hle, fun u w => ?_⟩
  by_cases hu : skipQualifier u = []
  · refine Or.inr ⟨hu, ?_⟩
    cases u with
    | nil => exact hle w
    | cons c u =>
      -- a qualifier that ends `u`
      have hshort := congrArg List.length hu
      have hstep : ∀ l, (skipQualifier (c :: l)).length = if c = 'h' ∨ c = 'l' ∨ c = 'L' then l.length else l.length + 1 := by
        intro l
        show (if c = 'h' ∨ c = 'l' ∨ c = 'L' then l else c :: l).length = _
        split
        · rfl
        · rfl
      rw [List.cons_append, hstep, List.length_append]
      rw [hstep, List.length_nil] at hshort
      split
      · next hc =>
        rw [if_pos hc] at hshort
        omega
      · next hc =>
        rw [if_neg hc] at hshort
        omega
  · exact Or.inl ⟨hu, skipQualifier_append w hu⟩

theorem Stops.comp {f g : List Char → List Char} (hf : Stops f) (hg : Stops g) : Stops fun l => g (f l) := by
  refine ⟨?_, fun l => (hg.le _).trans (hf.le l), fun u w => ?_⟩
  · simp only [hf.nil, hg.nil]
  · rcases hf.stops u w with ⟨-, heq⟩ | ⟨hu, hle⟩
    · simp only [heq]
      exact hg.stops (f u) w
    · simp only [hu]
      exact Or.inr ⟨hg.nil, (hg.le _).trans hle⟩

theorem stops_scan : Stops scan :=
  (((stops_dropWhile isFlag).comp (stops_dropWhile isDigit)).comp stops_scanPrecision).comp stops_skipQualifier

/-! ## The arguments of a directive -/

/-- The arguments from `n` on. -/
def Args.drop (n : Nat) (args : Args) : Args := fun i => args (i + n)

theorem Args.drop_drop (n m : Nat) (args : Args) : Args.drop m (Args.drop n args) = Args.drop (n + m) args := by
  funext i
  exact congrArg args (by omega)

/-- The first `n` arguments are the same. -/
def Agree (n : Nat) (args args' : Args) : Prop := ∀ i < n, args i = args' i

theorem getFieldWidth_digit {c : Char} (hc : isDigit c = true) (flags : Flags) (fmt : List Char) (args : Args) :
    getFieldWidth flags (c :: fmt) args =
      ⟨flags, (skipAtoi (c :: fmt) 0).1, -1, (skipAtoi (c :: fmt) 0).2, args⟩ :=
  if_pos hc

theorem getFieldWidth_star (flags : Flags) (fmt : List Char) (args : Args) :
    getFieldWidth flags ('*' :: fmt) args =
      if args 0 < 0 then ⟨{ flags with left := true }, -args 0, -1, '*' :: fmt, args.tail⟩
      else ⟨flags, args 0, -1, '*' :: fmt, args.tail⟩ := rfl

theorem getFieldWidth_other {c : Char} (hc : ¬ isDigit c = true) (hstar : c ≠ '*') (flags : Flags) (fmt : List Char)
    (args : Args) : getFieldWidth flags (c :: fmt) args = ⟨flags, -1, -1, c :: fmt, args⟩ :=
  (if_neg hc).trans (if_neg hstar)

theorem getFieldWidth_takes (flags : Flags) (fmt : List Char) : ∃ n, ∀ args args', Agree n args args' →
    getFieldWidth flags fmt args' = { getFieldWidth flags fmt args with args := Args.drop n args' } := by
  cases fmt with
  | nil => exact ⟨0, fun _ _ _ => rfl⟩
  | cons c rest =>
    by_cases hdigit : isDigit c = true
    · refine ⟨0, fun args args' _ => ?_⟩
      rw [getFieldWidth_digit hdigit, getFieldWidth_digit hdigit]
      rfl
    · by_cases hstar : c = '*'
      · refine ⟨1, fun args args' h => ?_⟩
        rw [hstar, getFieldWidth_star, getFieldWidth_star, h 0 Nat.zero_lt_one]
        split
        · rfl
        · rfl
      · refine ⟨0, fun args args' _ => ?_⟩
        rw [getFieldWidth_other hdigit hstar, getFieldWidth_other hdigit hstar]
        rfl

theorem getPrecision_takes (fmt : List Char) : ∃ n, ∀ (d : Directive) (args' : Args), Agree n d.args args' →
    getPrecision { d with args := args' } fmt = { getPrecision d fmt with args := Args.drop n args' } := by
  cases fmt with
  | nil => exact ⟨0, fun d args' _ => Directive.clamp_args { d with fmt := [] } args'⟩
  | cons c rest =>
    by_cases hdigit : isDigit c = true
    · refine ⟨0, fun d args' _ => ?_⟩
      rw [getPrecision_digit hdigit, getPrecision_digit hdigit]
      exact Directive.clamp_args { d with precision := _, fmt := _ } args'
    · by_cases hstar : c = '*'
      · refine ⟨1, fun d args' h => ?_⟩
        rw [hstar, getPrecision_star, getPrecision_star, h 0 Nat.zero_lt_one]
        exact Directive.clamp_args { d with precision := args' 0, fmt := '*' :: rest, args := d.args.tail } args'.tail
      · refine ⟨0, fun d args' _ => ?_⟩
        rw [getPrecision_other hdigit hstar, getPrecision_other hdigit hstar]
        exact Directive.clamp_args { d with fmt := _ } args'

theorem atPrecision_takes (fmt : List Char) : ∃ n, ∀ (d : Directive) (args' : Args), d.fmt = fmt → Agree n d.args args' →
    atPrecision { d with args := args' } = { atPrecision d with args := Args.drop n args' } := by
  by_cases hdot : ∃ rest, fmt = '.' :: rest
  · obtain ⟨rest, rfl⟩ := hdot
    obtain ⟨n, hn⟩ := getPrecision_takes rest
    refine ⟨n, fun d args' hfmt h => ?_⟩
    have hfmt' : ({ d with args := args' } : Directive).fmt = '.' :: rest := hfmt
    rw [atPrecision_dot hfmt, atPrecision_dot hfmt', hn d args' h]
  · refine ⟨0, fun d args' hfmt _ => ?_⟩
    have hother : ∀ rest, d.fmt ≠ '.' :: rest := fun rest h => hdot ⟨rest, hfmt ▸ h⟩
    have hother' : ∀ rest, ({ d with args := args' } : Directive).fmt ≠ '.' :: rest := hother
    rw [atPrecision_other hother, atPrecision_other hother']
    rfl

/-- How many arguments a directive takes is a matter of its text. -/
theorem directive_takes (fmt : List Char) : ∃ n, ∀ args args', Agree n args args' →
    directive fmt args' = { directive fmt args with args := Args.drop n args' } := by
  obtain ⟨n, hwidth⟩ := getFieldWidth_takes (processFlags fmt Flags.none).1 (processFlags fmt Flags.none).2
  obtain ⟨m, hprecision⟩ := atPrecision_takes ((fmt.dropWhile isFlag).dropWhile isDigit)
  refine ⟨n + m, fun args args' h => ?_⟩
  have hargs : (getFieldWidth (processFlags fmt Flags.none).1 (processFlags fmt Flags.none).2 args).args =
      Args.drop n args := congrArg Directive.args (hwidth args args fun _ _ => rfl)
  have hfmt : (getFieldWidth (processFlags fmt Flags.none).1 (processFlags fmt Flags.none).2 args).fmt =
      (fmt.dropWhile isFlag).dropWhile isDigit := by rw [getFieldWidth_fmt, processFlags_snd]
  have hagree : Agree m (Args.drop n args) (Args.drop n args') := fun i hi => h (i + n) (by omega)
  unfold directive
  simp only
  rw [hwidth args args' fun i hi => h i (by omega), hprecision _ _ hfmt (hargs ▸ hagree),
    Args.drop_drop]

/-! ## What a conversion writes -/

theorem fill_clean {c : Char} (a b : Int32) (hc : c ≠ '%') : '%' ∉ (fill c a b).1 := by
  intro hmem
  rw [fill_eq] at hmem
  exact hc (List.eq_of_mem_replicate hmem).symm

theorem putNumber_clean {sign special digits : List Char} (type : Flags) (size : Int32) (hsign : '%' ∉ sign)
    (hspecial : '%' ∉ special) (hdigits : '%' ∉ digits) : '%' ∉ putNumber type size sign special digits := by
  have hpadding : (if type.zeropad then '0' else ' ') ≠ '%' := by
    split
    · decide
    · decide
  unfold putNumber
  simp only [List.mem_append, not_or]
  refine ⟨⟨⟨⟨⟨?_, hsign⟩, hspecial⟩, ?_⟩, hdigits⟩, fill_clean _ _ (by decide)⟩
  · split
    · exact fill_clean _ _ (by decide)
    · exact List.not_mem_nil
  · split
    · exact fill_clean _ _ hpadding
    · exact List.not_mem_nil

/-- No number is written with a `%`, and none is empty. -/
theorem number_clean (num base size precision : Int32) (type : Flags) (hbase : 2 ≤ base.toInt ∧ base.toInt ≤ 36) :
    ∃ t, number num base size precision type = some t ∧ '%' ∉ t ∧ t ≠ [] := by
  have hdigit : ∀ k, (digitChars type).getD k '0' ≠ '%' := by
    intro k
    unfold digitChars
    have hall : ∀ l : List Char, '%' ∉ l → l.getD k '0' ≠ '%' := by
      intro l hl h
      rw [List.getD_eq_getElem?_getD] at h
      cases hk : l[k]? with
      | none =>
        rw [hk] at h
        revert h
        decide
      | some c =>
        rw [hk] at h
        exact hl (h ▸ List.mem_of_getElem? hk)
    split
    · exact hall _ (by decide)
    · exact hall _ (by decide)
  have hnumerals : '%' ∉ numerals num base type := by
    unfold numerals
    split
    · decide
    · rw [List.mem_reverse, List.mem_map]
      rintro ⟨k, -, hk⟩
      exact hdigit k hk
  have hprecise : '%' ∉ precise num base precision type ∧ precise num base precision type ≠ [] := by
    unfold precise
    refine ⟨fun hmem => ?_, fun hnil => ?_⟩
    · rcases List.mem_append.mp hmem with h | h
      · exact absurd (List.eq_of_mem_replicate h) (by decide)
      · exact hnumerals h
    · have hlength := (numerals_length num type hbase.1).1
      rw [(List.append_eq_nil_iff.mp hnil).2] at hlength
      exact absurd hlength (by decide)
  have hsign : '%' ∉ signText num type := by
    unfold signText
    split
    · decide
    · split
      · decide
      · split
        · decide
        · decide
  have hspecial : '%' ∉ specialText base type := by
    unfold specialText
    split
    · split
      · decide
      · split
        · split
          · decide
          · decide
        · decide
    · decide
  refine ⟨_, number_put hbase, putNumber_clean _ _ hsign hspecial hprecise.1, ?_⟩
  unfold putNumber
  simp only [ne_eq, List.append_eq_nil_iff, not_and]
  exact fun h => absurd h.2 hprecise.2

/-- The conversions that call `number`. -/
def numeric : List Char := ['o', 'p', 'x', 'X', 'd', 'i', 'u']

theorem convert_numeric {c : Char} (hc : c ∈ numeric) :
    ∃ (base : Int32) (width : Directive → Int32) (flags : Directive → Flags), (2 ≤ base.toInt ∧ base.toInt ≤ 36) ∧
      (∀ d args fmt, width { d with args, fmt } = width d ∧ flags { d with args, fmt } = flags d) ∧
      ∀ string len d, convert string len d c =
        (number (d.args 0) base (width d) d.precision (flags d)).map fun t => (t, [], d.args.tail) := by
  have hbind : ∀ (x : Option (List Char)) (args : Args), (do
      let text ← x
      return (text, ([] : List (Int32 × Int32)), args)) = x.map fun t => (t, [], args) := by
    intro x args
    cases x with
    | none => rfl
    | some t => rfl
  unfold numeric at hc
  simp only [List.mem_cons, List.not_mem_nil, or_false] at hc
  obtain rfl | rfl | rfl | rfl | rfl | rfl | rfl := hc
  · exact ⟨8, Directive.fieldWidth, Directive.flags, by decide, fun _ _ _ => ⟨rfl, rfl⟩, fun _ _ _ => hbind _ _⟩
  · refine ⟨16, fun d => if d.fieldWidth = -1 then 8 else d.fieldWidth,
      fun d => if d.fieldWidth = -1 then { d.flags with zeropad := true } else d.flags, by decide, fun _ _ _ => ⟨rfl, rfl⟩,
      fun string len d => ?_⟩
    show (if d.fieldWidth = -1 then _ else _) = _
    by_cases hdefault : d.fieldWidth = -1
    · simp only [if_pos hdefault]
      exact hbind _ _
    · simp only [if_neg hdefault]
      exact hbind _ _
  · exact ⟨16, Directive.fieldWidth, fun d => { d.flags with small := true }, by decide, fun _ _ _ => ⟨rfl, rfl⟩,
      fun _ _ _ => hbind _ _⟩
  · exact ⟨16, Directive.fieldWidth, Directive.flags, by decide, fun _ _ _ => ⟨rfl, rfl⟩, fun _ _ _ => hbind _ _⟩
  · exact ⟨10, Directive.fieldWidth, fun d => { d.flags with sign := true }, by decide, fun _ _ _ => ⟨rfl, rfl⟩,
      fun _ _ _ => hbind _ _⟩
  · exact ⟨10, Directive.fieldWidth, fun d => { d.flags with sign := true }, by decide, fun _ _ _ => ⟨rfl, rfl⟩,
      fun _ _ _ => hbind _ _⟩
  · exact ⟨10, Directive.fieldWidth, Directive.flags, by decide, fun _ _ _ => ⟨rfl, rfl⟩, fun _ _ _ => hbind _ _⟩

theorem convert_other {c : Char} (hc : c ∉ numeric) (hother : c ≠ 'c' ∧ c ≠ 's' ∧ c ≠ 'n' ∧ c ≠ '%')
    (string : Int32 → List Char) (len : Nat) (d : Directive) : convert string len d c = some (['%', c], [], d.args) := by
  obtain ⟨hchar, hstring, hn, hpercent⟩ := hother
  unfold convert
  simp only
  split
  · exact absurd rfl hchar
  · exact absurd rfl hstring
  · exact absurd (by decide) hc
  · exact absurd (by decide) hc
  · exact absurd (by decide) hc
  · exact absurd (by decide) hc
  · exact absurd (by decide) hc
  · exact absurd (by decide) hc
  · exact absurd (by decide) hc
  · exact absurd rfl hn
  · exact absurd rfl hpercent
  · rfl

theorem blanks_clean (w : Int32) : ∀ x ∈ (blanks w).1, x = ' ' := by
  have hloop : ∀ (rounds : Nat) (w : Int32), ∀ x ∈ (blankLoop rounds w).1, x = ' ' := by
    intro rounds
    induction rounds with
    | zero => exact fun w x hx => absurd hx List.not_mem_nil
    | succ rounds ih =>
      intro w x hx
      unfold blankLoop at hx
      split at hx
      · rcases List.mem_cons.mp hx with h | h
        · exact h
        · exact ih _ x h
      · exact absurd hx List.not_mem_nil
  exact hloop _ w

/-- All characters but one are blanks. -/
theorem putChar_clean (d : Directive) : ¬ ('%' ∈ putChar d ∧ '*' ∈ putChar d) := by
  have hone : ∀ x ∈ putChar d, x = ' ' ∨ x = Char.ofNat ((d.args 0).toUInt32.toNat % 256) := by
    intro x hx
    unfold putChar at hx
    simp only [List.mem_append, List.mem_singleton] at hx
    obtain (hx | hx) | hx := hx
    · split at hx
      · exact Or.inl (blanks_clean _ x hx)
      · exact absurd hx List.not_mem_nil
    · exact Or.inr hx
    · exact Or.inl (blanks_clean _ x hx)
  rintro ⟨hpercent, hstar⟩
  rcases hone _ hpercent with h | h
  · exact absurd h (by decide)
  · rcases hone _ hstar with h' | h'
    · exact absurd h' (by decide)
    · exact absurd (h.trans h'.symm) (by decide)

theorem putString_clean (d : Directive) : '%' ∉ putString d [] := by
  unfold putString
  simp only [List.take_nil, List.append_nil, List.mem_append, not_or]
  refine ⟨?_, fill_clean _ _ (by decide)⟩
  split
  · exact fill_clean _ _ (by decide)
  · exact List.not_mem_nil

/-- What a conversion writes, and how many arguments it takes. -/
theorem convert_takes (c : Char) : ∃ m, ∀ (string : Int32 → List Char) (d : Directive), ∃ t,
    (∀ args fmt, Agree m d.args args → ∀ len, ∃ stores,
      convert string len { d with args, fmt } c = some (t, stores, Args.drop m args)) ∧
    (c = '%' → t = ['%']) ∧
    (c ≠ '%' → (∀ p, string p = []) → t = ['%', c] ∨ ¬ ('%' ∈ t ∧ '*' ∈ t)) ∧
    (c ∈ numeric → '%' ∉ t ∧ t ≠ []) := by
  by_cases hc : c ∈ numeric
  · obtain ⟨base, width, flags, hbase, hsame, hconvert⟩ := convert_numeric hc
    refine ⟨1, fun string d => ?_⟩
    obtain ⟨t, ht, hclean, hne⟩ := number_clean (d.args 0) base (width d) d.precision (flags d) hbase
    refine ⟨t, fun args fmt h len => ⟨[], ?_⟩, ?_, fun _ _ => Or.inr fun h => hclean h.1, fun _ => ⟨hclean, hne⟩⟩
    · rw [hconvert]
      simp only
      rw [(hsame d args fmt).1, (hsame d args fmt).2, ← h 0 Nat.zero_lt_one, ht]
      rfl
    · rintro rfl
      exact absurd hc (by decide)
  · by_cases hchar : c = 'c'
    · subst hchar
      refine ⟨1, fun string d => ⟨putChar d, fun args fmt h len => ⟨[], ?_⟩, fun h => absurd h (by decide),
        fun _ _ => Or.inr (putChar_clean d), fun h => absurd h hc⟩⟩
      have hsame : putChar { d with args, fmt } = putChar d := by
        unfold putChar
        simp only
        rw [h 0 Nat.zero_lt_one]
      show some (putChar { d with args, fmt }, _, _) = _
      rw [hsame]
      rfl
    · by_cases hstring : c = 's'
      · subst hstring
        refine ⟨1, fun string d => ⟨putString d (string (d.args 0)), fun args fmt h len => ⟨[], ?_⟩,
          fun h => absurd h (by decide), fun _ hempty => Or.inr fun h => ?_, fun h => absurd h hc⟩⟩
        · show some (putString { d with args, fmt } (string (args 0)), _, _) = _
          rw [← h 0 Nat.zero_lt_one]
          rfl
        · rw [hempty] at h
          exact putString_clean d h.1
      · by_cases hn : c = 'n'
        · subst hn
          exact ⟨1, fun string d => ⟨[], fun args fmt h len => ⟨_, rfl⟩, fun h => absurd h (by decide),
            fun _ _ => Or.inr fun h => absurd h.1 List.not_mem_nil, fun h => absurd h hc⟩⟩
        · by_cases hpercent : c = '%'
          · subst hpercent
            exact ⟨0, fun string d => ⟨['%'], fun args fmt h len => ⟨[], rfl⟩, fun _ => rfl, fun h => absurd rfl h,
              fun h => absurd h hc⟩⟩
          · refine ⟨0, fun string d => ⟨['%', c], fun args fmt h len => ⟨[], ?_⟩, fun h => absurd h hpercent,
              fun _ _ => Or.inl rfl, fun h => absurd h hc⟩⟩
            rw [convert_other hc ⟨hchar, hstring, hn, hpercent⟩]
            rfl

end Vsprintf

end Linux011.Kernel
