import Linux011.Kernel.Directive

/-!
# Field widths from the arguments

`vsprintf` takes a width or a precision from the arguments when it finds a `*`, but it does not go past the `*`,
so that the `*` becomes the conversion.
-/

namespace Linux011.Kernel

namespace Vsprintf

/-! ## What a format writes -/

/-- The loop writes `t` for the format, whatever has been written before. -/
def Writes (string : Int32 → List Char) (fmt : List Char) (args : Args) (t : List Char) : Prop :=
  ∀ rounds len, fmt.length ≤ rounds → ∃ stores, vsprintfLoop string rounds len fmt args = some (t, stores)

section

variable {string : Int32 → List Char} {fmt : List Char} {args : Args} {t : List Char}

theorem Writes.text (h : Writes string fmt args t) : (vsprintf string fmt args).map Prod.fst = some t := by
  obtain ⟨stores, hloop⟩ := h fmt.length 0 (Nat.le_refl _)
  unfold vsprintf
  rw [hloop]
  rfl

theorem Writes.unique {t' : List Char} (h : Writes string fmt args t) (h' : Writes string fmt args t') : t = t' :=
  Option.some.inj (h.text.symm.trans h'.text)

theorem Writes.nil : Writes string [] args [] := by
  intro rounds len _
  refine ⟨[], ?_⟩
  cases rounds with
  | zero => rfl
  | succ rounds => rfl

theorem Writes.literal {c : Char} (hc : c ≠ '%') (h : Writes string fmt args t) :
    Writes string (c :: fmt) args (c :: t) := by
  intro rounds len hrounds
  rw [List.length_cons] at hrounds
  obtain ⟨rounds, rfl⟩ : ∃ r, rounds = r + 1 := ⟨rounds - 1, by omega⟩
  obtain ⟨stores, hloop⟩ := h rounds (len + 1) (by omega)
  refine ⟨stores, ?_⟩
  rw [vsprintfLoop, if_pos hc, hloop]
  rfl

/-- Literals up to the next conversion. -/
theorem Writes.literals {mid : List Char} (hmid : '%' ∉ mid) (h : Writes string fmt args t) :
    Writes string (mid ++ fmt) args (mid ++ t) := by
  induction mid with
  | nil => exact h
  | cons c mid ih =>
    rw [List.mem_cons, not_or] at hmid
    exact Writes.literal (Ne.symm hmid.1) (ih hmid.2)

/-- A format that ends within a directive. -/
theorem Writes.unfinished (hscan : scan fmt = []) : Writes string ('%' :: fmt) args ['%'] := by
  intro rounds len hrounds
  rw [List.length_cons] at hrounds
  obtain ⟨rounds, rfl⟩ : ∃ r, rounds = r + 1 := ⟨rounds - 1, by omega⟩
  refine ⟨[], ?_⟩
  rw [vsprintfLoop, if_neg (by decide)]
  simp only
  rw [directive_fmt, hscan]

theorem Writes.directive {c : Char} {rest text : List Char} {args' : Args} (hscan : scan fmt = c :: rest)
    (hconvert : ∀ len, ∃ stores, convert string len (directive fmt args) c = some (text, stores, args'))
    (h : Writes string rest args' t) : Writes string ('%' :: fmt) args (text ++ t) := by
  intro rounds len hrounds
  rw [List.length_cons] at hrounds
  obtain ⟨rounds, rfl⟩ : ∃ r, rounds = r + 1 := ⟨rounds - 1, by omega⟩
  obtain ⟨mid, hmid, -⟩ := scan_split fmt
  have hlength := congrArg List.length hmid
  rw [hscan, List.length_append, List.length_cons] at hlength
  obtain ⟨stores, hstep⟩ := hconvert len
  obtain ⟨stores', hloop⟩ := h rounds (len + text.length) (by omega)
  refine ⟨stores ++ stores', ?_⟩
  rw [vsprintfLoop, if_neg (by decide)]
  simp only
  rw [directive_fmt, hscan]
  simp only
  rw [hstep]
  simp only [Option.bind_eq_bind, Option.bind_some]
  rw [hloop]
  rfl

/-- One round takes `n` arguments and looks at no others, and what it writes does not depend on what follows. -/
def Takes (body : List Char) (c : Char) (n : Nat) : Prop := ∀ (string : Int32 → List Char) (args : Args), ∃ t,
  (∀ args' w, Agree n args args' → ∀ len, ∃ stores,
    convert string len (directive (body ++ w) args') c = some (t, stores, Args.drop n args')) ∧
  (c = '%' → t = ['%']) ∧
  (c ≠ '%' → (∀ p, string p = []) → t = ['%', c] ∨ ¬ ('%' ∈ t ∧ '*' ∈ t)) ∧
  (c ∈ numeric → '%' ∉ t ∧ t ≠ [])

theorem exists_takes {body : List Char} {c : Char} (hscan : scan body = [c]) : ∃ n, Takes body c n := by
  obtain ⟨n, hdirective⟩ := directive_takes body
  obtain ⟨m, hconvert⟩ := convert_takes c
  refine ⟨n + m, fun string args => ?_⟩
  obtain ⟨t, htext, hrest⟩ := hconvert string (directive body args)
  refine ⟨t, fun args' w h len => ?_, hrest⟩
  have hargs : (Vsprintf.directive body args).args = Args.drop n args :=
    congrArg Directive.args (hdirective args args fun _ _ => rfl)
  have hagree : Agree m (Vsprintf.directive body args).args (Args.drop n args') := by
    rw [hargs]
    exact fun i hi => h (i + n) (by omega)
  rw [directive_append w (by simp [hscan]), hdirective args args' fun i hi => h i (by omega),
    ← Args.drop_drop]
  exact htext (Args.drop n args') _ hagree len

/-- Rounds of the loop that take `k` arguments. -/
inductive Rounds : List Char → Nat → Prop
  | nil : Rounds [] 0
  | literal {c : Char} {fmt : List Char} {k : Nat} (hc : c ≠ '%') (h : Rounds fmt k) : Rounds (c :: fmt) k
  | directive {body fmt : List Char} {c : Char} {n k : Nat} (hscan : scan body = [c]) (htakes : Takes body c n)
      (h : Rounds fmt k) : Rounds ('%' :: body ++ fmt) (n + k)

/-- What rounds write does not depend on what follows them. -/
theorem Rounds.writes {pre : List Char} {k : Nat} (h : Rounds pre k) (string : Int32 → List Char) (args : Args) :
    ∃ p, ∀ args' fmt t, Agree k args args' → Writes string fmt (Args.drop k args') t →
      Writes string (pre ++ fmt) args' (p ++ t) := by
  induction h generalizing args with
  | nil => exact ⟨[], fun args' fmt t _ ht => ht⟩
  | literal hc _ ih =>
    obtain ⟨p, hp⟩ := ih args
    exact ⟨_ :: p, fun args' fmt t hagree ht => (hp args' fmt t hagree ht).literal hc⟩
  | @directive body rest c n k hscan htakes _ ih =>
    obtain ⟨text, htext, -⟩ := htakes string args
    obtain ⟨p, hp⟩ := ih (Args.drop n args)
    refine ⟨text ++ p, fun args' fmt t hagree ht => ?_⟩
    have hrest := hp (Args.drop n args') fmt t (fun i hi => hagree (i + n) (by omega)) ((Args.drop_drop n k args').symm ▸ ht)
    have hfmt : scan (body ++ (rest ++ fmt)) = c :: (rest ++ fmt) := by
      rw [← directive_fmt _ args, directive_append _ (by simp [hscan]), hscan]
      rfl
    have hround := Writes.directive hfmt (htext args' (rest ++ fmt) fun i hi => hagree i (by omega)) hrest
    simpa [List.append_assoc] using hround

/-- A directive that is reached. -/
theorem writes_conversion {c : Char} {rest : List Char} (hscan : scan fmt = c :: rest)
    (string : Int32 → List Char) (args : Args) : ∃ k text,
    (∀ t, Writes string rest (Args.drop k args) t → Writes string ('%' :: fmt) args (text ++ t)) ∧
    (c = '%' → text = ['%']) ∧
    (c ≠ '%' → (∀ p, string p = []) → text = ['%', c] ∨ ¬ ('%' ∈ text ∧ '*' ∈ text)) ∧
    (c ∈ numeric → '%' ∉ text ∧ text ≠ []) := by
  obtain ⟨n, hdirective⟩ := directive_takes fmt
  obtain ⟨m, hconvert⟩ := convert_takes c
  obtain ⟨text, htext, hrest⟩ := hconvert string (directive fmt args)
  have hargs : (Vsprintf.directive fmt args).args = Args.drop n args :=
    congrArg Directive.args (hdirective args args fun _ _ => rfl)
  refine ⟨n + m, text, fun t ht => ?_, hrest⟩
  rw [← Args.drop_drop, ← hargs] at ht
  exact Writes.directive hscan (htext _ (Vsprintf.directive fmt args).fmt fun _ _ => rfl) ht

/-- Every format writes something. -/
theorem exists_writes (string : Int32 → List Char) (fmt : List Char) (args : Args) : ∃ t, Writes string fmt args t := by
  induction hlength : fmt.length using Nat.strong_induction_on generalizing fmt args with
  | _ n ih =>
    cases fmt with
    | nil => exact ⟨[], Writes.nil⟩
    | cons c fmt =>
      rw [List.length_cons] at hlength
      by_cases hc : c = '%'
      · rw [hc]
        cases hscan : scan fmt with
        | nil => exact ⟨_, Writes.unfinished hscan⟩
        | cons c' rest =>
          obtain ⟨mid, hmid, -⟩ := scan_split fmt
          have hrest := congrArg List.length hmid
          rw [hscan, List.length_append, List.length_cons] at hrest
          obtain ⟨k, text, htext, -⟩ := writes_conversion hscan string args
          obtain ⟨t, ht⟩ := ih rest.length (by omega) rest (Args.drop k args) rfl
          exact ⟨_, htext t ht⟩
      · obtain ⟨t, ht⟩ := ih fmt.length (by omega) fmt args rfl
        exact ⟨_, ht.literal hc⟩

/-- Any format is rounds of the loop, up to its end or to a directive without a conversion. -/
theorem exists_rounds (fmt : List Char) : ∃ pre k, Rounds pre k ∧
    (fmt = pre ∨ ∃ body, fmt = pre ++ '%' :: body ∧ scan body = []) := by
  induction hlength : fmt.length using Nat.strong_induction_on generalizing fmt with
  | _ n ih =>
    cases fmt with
    | nil => exact ⟨[], 0, Rounds.nil, Or.inl rfl⟩
    | cons c fmt =>
      rw [List.length_cons] at hlength
      by_cases hc : c = '%'
      · cases hscan : scan fmt with
        | nil => exact ⟨[], 0, Rounds.nil, Or.inr ⟨fmt, by rw [hc]; rfl, hscan⟩⟩
        | cons c' rest =>
          obtain ⟨mid, hmid, -⟩ := scan_split fmt
          rw [hscan] at hmid
          have hfmt : fmt = mid ++ [c'] ++ rest := by rw [List.append_assoc]; exact hmid
          have hbody : scan (mid ++ [c']) = [c'] := by
            rcases stops_scan.stops (mid ++ [c']) rest with ⟨-, heq⟩ | ⟨-, hle⟩
            · rw [← hfmt, hscan] at heq
              exact List.append_cancel_right heq.symm
            · rw [← hfmt, hscan, List.length_cons] at hle
              omega
          have hrest := congrArg List.length hmid
          rw [List.length_append, List.length_cons] at hrest
          obtain ⟨n, htakes⟩ := exists_takes hbody
          obtain ⟨pre, k, hpre, hend⟩ := ih rest.length (by omega) rest rfl
          refine ⟨_, _, Rounds.directive hbody htakes hpre, ?_⟩
          rw [hc, hfmt]
          rcases hend with hall | ⟨body, hlast, hnone⟩
          · exact Or.inl (by rw [hall]; rfl)
          · exact Or.inr ⟨body, by rw [hlast]; simp, hnone⟩
      · obtain ⟨pre, k, hpre, hend⟩ := ih fmt.length (by omega) fmt rfl
        refine ⟨c :: pre, k, Rounds.literal hc hpre, ?_⟩
        rcases hend with hall | ⟨body, hlast, hnone⟩
        · exact Or.inl (by rw [hall])
        · exact Or.inr ⟨body, by rw [hlast]; rfl, hnone⟩

/-! ## A star -/

/-- A `*` is where the conversion is looked for: it is written itself, behind a `%`. -/
theorem writes_star {tail : List Char} (hscan : scan fmt = '*' :: tail) (string : Int32 → List Char) (args : Args) :
    ∃ n, ∀ t, Writes string tail (Args.drop n args) t → Writes string ('%' :: fmt) args ('%' :: '*' :: t) := by
  obtain ⟨n, hdirective⟩ := directive_takes fmt
  refine ⟨n, fun t ht => ?_⟩
  have hconvert : ∀ len, ∃ stores, convert string len (directive fmt args) '*' = some (['%', '*'], stores, Args.drop n args) := by
    intro len
    refine ⟨[], ?_⟩
    rw [convert_other (by decide) (by decide), hdirective args args fun _ _ => rfl]
  exact Writes.directive hscan hconvert ht

end

section

variable {string : Int32 → List Char} {v : Int32}

/-- What is written for a percent sign and what for the same text behind it. -/
theorem percent_ne (hempty : ∀ p, string p = []) {rest mid r t : List Char}
    (hr : Writes string rest (fun _ => v) r) (ht : Writes string ('%' :: rest) (fun _ => v) t) : r ≠ '*' :: mid ++ t := by
  intro heq
  have hlength := congrArg List.length heq
  rw [List.length_append, List.length_cons] at hlength
  cases rest with
  | nil =>
    rw [hr.unique Writes.nil] at heq
    cases heq
  | cons e rest =>
    by_cases he : e = '%'
    · -- `%%` writes one percent sign, and `rest` what it writes behind a percent sign
      subst he
      obtain ⟨r', hr'⟩ := exists_writes string rest fun _ => v
      have hpercent : Writes string ('%' :: '%' :: rest) (fun _ => v) ('%' :: r') := by
        obtain ⟨k, text, htext, htake, -⟩ := writes_conversion (show scan ('%' :: rest) = '%' :: rest from rfl) string fun _ => v
        have hstep := htext r' hr'
        rw [htake rfl] at hstep
        exact hstep
      rw [ht.unique hpercent] at heq
      cases hscan : scan rest with
      | nil =>
        rw [hr.unique (Writes.unfinished hscan)] at heq
        cases heq
      | cons c rest' =>
        obtain ⟨k, text, htext, htake, hshape, -⟩ := writes_conversion hscan string fun _ => v
        obtain ⟨t', ht'⟩ := exists_writes string rest' fun _ => v
        rw [hr.unique (htext t' ht')] at heq
        by_cases hc : c = '%'
        · rw [htake hc] at heq
          cases heq
        · obtain ⟨mid', hmid', hno⟩ := scan_split rest
          have hrest : r' = mid' ++ c :: t' := by
            refine hr'.unique ?_
            rw [hmid', hscan]
            exact Writes.literals hno (ht'.literal hc)
          have htext' : text = '*' :: mid ++ '%' :: mid' ++ [c] := by
            refine List.append_cancel_right (heq.trans ?_)
            rw [hrest]
            simp
          rcases hshape hc hempty with h | h
          · rw [h] at htext'
            cases htext'
          · exact h (by rw [htext']; simp)
    · -- a star that is written as it stands
      obtain ⟨r', hr'⟩ := exists_writes string rest fun _ => v
      rw [hr.unique (hr'.literal he)] at heq hlength
      have hstar : e = '*' := (List.cons.inj heq).1
      subst hstar
      obtain ⟨n, hwrites⟩ := writes_star (show scan ('*' :: rest) = '*' :: rest from rfl) string fun _ => v
      rw [ht.unique (hwrites r' hr')] at hlength
      simp only [List.length_cons] at hlength
      omega

/-- A directive whose conversion is `c` and one with a star before the same tail. -/
theorem star_ne (hempty : ∀ p, string p = []) {body body' mid t t' : List Char} (hmid : '%' ∉ mid)
    (hstar : scan body' = '*' :: (mid ++ scan body)) (ht : Writes string ('%' :: body) (fun _ => v) t)
    (ht' : Writes string ('%' :: body') (fun _ => v) t') : t ≠ t' := by
  intro heq
  obtain ⟨n, hwrites⟩ := writes_star hstar string fun _ => v
  obtain ⟨s, hs⟩ := exists_writes string (scan body) fun _ => v
  rw [ht'.unique (hwrites _ (hs.literals hmid))] at heq
  cases hscan : scan body with
  | nil =>
    rw [ht.unique (Writes.unfinished hscan)] at heq
    cases heq
  | cons c rest =>
    obtain ⟨k, text, htext, htake, hshape, -⟩ := writes_conversion hscan string fun _ => v
    obtain ⟨r, hr⟩ := exists_writes string rest fun _ => v
    rw [ht.unique (htext r hr)] at heq
    rw [hscan] at hs
    by_cases hc : c = '%'
    · rw [htake hc] at heq
      rw [hc] at hs
      exact percent_ne hempty hr hs (List.cons.inj heq).2
    · rw [hs.unique (hr.literal hc)] at heq
      have htext' : text = '%' :: '*' :: mid ++ [c] := by
        refine List.append_cancel_right (heq.trans ?_)
        simp
      rcases hshape hc hempty with h | h
      · rw [h] at htext'
        have hlength := congrArg List.length htext'
        simp only [List.length_append, List.length_cons, List.length_nil] at hlength
        omega
      · exact h (by rw [htext']; simp)

/-- A number never begins with a percent sign, whatever the arguments are. -/
theorem numeric_ne {body body' tail t t' : List Char} {c : Char} {rest : List Char} {args args' : Args}
    (hscan : scan body = c :: rest) (hc : c ∈ numeric) (hstar : scan body' = '*' :: tail)
    (ht : Writes string ('%' :: body) args t) (ht' : Writes string ('%' :: body') args' t') : t ≠ t' := by
  intro heq
  obtain ⟨n, hwrites⟩ := writes_star hstar string args'
  obtain ⟨s, hs⟩ := exists_writes string tail (Args.drop n args')
  obtain ⟨k, text, htext, -, -, hclean⟩ := writes_conversion hscan string args
  obtain ⟨r, hr⟩ := exists_writes string rest (Args.drop k args)
  obtain ⟨hno, hne⟩ := hclean hc
  rw [ht'.unique (hwrites s hs), ht.unique (htext r hr)] at heq
  obtain ⟨x, xs, rfl⟩ := List.exists_cons_of_ne_nil hne
  rw [List.cons_append] at heq
  exact hno (by rw [(List.cons.inj heq).1]; simp)

end

/-! ## Numbers and stars -/

/-- A number of a format: a flag does not take its first digit. -/
structure IsNumber (ds : List Char) : Prop where
  digits : ∀ c ∈ ds, isDigit c = true
  first : ds.head? ≠ some '0'

/-- A directive with a width or a precision, its value, and the directive with a `*` instead. -/
inductive Replaced : List Char → Int32 → List Char → Prop
  | width {fl ds tail : List Char} (hfl : ∀ c ∈ fl, isFlag c = true) (hds : IsNumber ds) (hne : ds ≠ [])
      (htail : ∀ c ∈ tail.head?, isDigit c = false) :
      Replaced (fl ++ (ds ++ tail)) (skipAtoi ds 0).1 (fl ++ '*' :: tail)
  | precision {fl w ds tail : List Char} (hfl : ∀ c ∈ fl, isFlag c = true) (hw : w = ['*'] ∨ IsNumber w)
      (hds : ∀ c ∈ ds, isDigit c = true) (hne : ds ≠ []) (htail : ∀ c ∈ tail.head?, isDigit c = false) :
      Replaced (fl ++ (w ++ '.' :: (ds ++ tail))) (skipAtoi ds 0).1 (fl ++ (w ++ '.' :: '*' :: tail))

theorem dropWhile_run {p : Char → Bool} {a b : List Char} (ha : ∀ c ∈ a, p c = true) (hb : ∀ c ∈ b.head?, p c = false) :
    (a ++ b).dropWhile p = b := by
  rw [List.dropWhile_append_of_pos ha]
  cases b with
  | nil => rfl
  | cons c b => exact List.dropWhile_cons_of_neg (by simp [hb c rfl])

theorem isFlag_digit {c : Char} (hc : isDigit c = true) (hzero : c ≠ '0') : isFlag c = false := by
  cases hflag : isFlag c with
  | false => rfl
  | true =>
    unfold isFlag at hflag
    simp only [Bool.or_eq_true, beq_iff_eq] at hflag
    obtain (((rfl | rfl) | rfl) | rfl) | h := hflag
    · exact absurd hc (by decide)
    · exact absurd hc (by decide)
    · exact absurd hc (by decide)
    · exact absurd hc (by decide)
    · exact absurd h hzero

/-- A number stops the flags. -/
theorem IsNumber.head {ds b : List Char} (h : IsNumber ds) (hb : ∀ c ∈ b.head?, isFlag c = false) :
    ∀ c ∈ (ds ++ b).head?, isFlag c = false := by
  cases ds with
  | nil => exact hb
  | cons d ds =>
    intro c hc
    obtain rfl : d = c := Option.some.inj hc
    exact isFlag_digit (h.digits d List.mem_cons_self) fun hzero => h.first (by rw [hzero]; rfl)

theorem scan_run {fl w tail : List Char} (hfl : ∀ c ∈ fl, isFlag c = true) (hw : IsNumber w)
    (hflag : ∀ c ∈ tail.head?, isFlag c = false) (hdigit : ∀ c ∈ tail.head?, isDigit c = false) :
    scan (fl ++ (w ++ tail)) = skipQualifier (scanPrecision tail) := by
  unfold scan
  rw [dropWhile_run hfl (hw.head hflag), dropWhile_run hw.digits hdigit]

theorem isNumber_nil : IsNumber [] := ⟨fun _ h => absurd h List.not_mem_nil, fun h => by cases h⟩

/-- A star stays where it is. -/
theorem scan_star {fl : List Char} (hfl : ∀ c ∈ fl, isFlag c = true) (tail : List Char) :
    scan (fl ++ '*' :: tail) = '*' :: tail :=
  scan_run (w := []) hfl isNumber_nil (fun c hc => by cases hc; decide) (fun c hc => by cases hc; decide)

/-- Where the two directives have their conversions. -/
theorem Replaced.scan {body body' : List Char} {v : Int32} (h : Replaced body v body') :
    (∃ mid, '%' ∉ mid ∧ Vsprintf.scan body' = '*' :: (mid ++ Vsprintf.scan body)) ∨
      ∃ ds tail, ds ≠ ['*'] ∧ '%' ∉ ds ∧ Vsprintf.scan body = '*' :: '.' :: (ds ++ tail) ∧
        Vsprintf.scan body' = '*' :: '.' :: '*' :: tail := by
  cases h with
  | @width fl ds tail hfl hds hne htail =>
    obtain ⟨mid, hmid, hno⟩ := tail_split tail
    refine Or.inl ⟨mid, hno, ?_⟩
    have hdrop : Vsprintf.scan (fl ++ (ds ++ tail)) = skipQualifier (scanPrecision tail) := by
      unfold Vsprintf.scan
      obtain ⟨d, ds', rfl⟩ := List.exists_cons_of_ne_nil hne
      rw [dropWhile_run hfl, dropWhile_run hds.digits htail]
      intro c hc
      obtain rfl : d = c := Option.some.inj hc
      exact isFlag_digit (hds.digits d List.mem_cons_self) fun hzero => hds.first (by rw [hzero]; rfl)
    rw [scan_star hfl, hdrop, ← hmid]
  | @precision fl w ds tail hfl hw hds hne htail =>
    have hdot : ∀ rest : List Char, (∀ c ∈ ('.' :: rest).head?, isFlag c = false) ∧
        ∀ c ∈ ('.' :: rest).head?, isDigit c = false := by
      intro rest
      exact ⟨fun c hc => by cases hc; decide, fun c hc => by cases hc; decide⟩
    rcases hw with rfl | hw
    · -- the star of the width ends both directives
      refine Or.inr ⟨ds, tail, ?_, ?_, scan_star hfl _, scan_star hfl _⟩
      · rintro rfl
        exact absurd (hds '*' List.mem_cons_self) (by decide)
      · exact fun hmem => absurd (hds '%' hmem) (by decide)
    · obtain ⟨mid, hmid, hno⟩ := skipQualifier_split tail
      refine Or.inl ⟨mid, hno, ?_⟩
      rw [scan_run hfl hw (hdot _).1 (hdot _).2, scan_run hfl hw (hdot _).1 (hdot _).2]
      show skipQualifier (('*' :: tail).dropWhile isDigit) = '*' :: (mid ++ skipQualifier ((ds ++ tail).dropWhile isDigit))
      rw [dropWhile_run hds htail, ← hmid]
      rfl

/-- `v` is the next argument behind the first `k`. -/
def Args.insert (k : Nat) (v : Int32) (args : Args) : Args := fun i =>
  if i < k then args i else if i = k then v else args (i - 1)

/-- What `vsprintf` writes. -/
def text (string : Int32 → List Char) (fmt : List Char) (args : Args) : Option (List Char) :=
  (vsprintf string fmt args).map Prod.fst

/-- Wherever a width or a precision stands in a format, a star in its place with the value among the arguments does
not write the same for all arguments, and for a conversion of a number it does so for none. -/
theorem star_never {pre body body' : List Char} {k : Nat} {v : Int32} (hpre : Rounds pre k) (h : Replaced body v body') :
    (¬ ∀ string args, text string (pre ++ '%' :: body) args = text string (pre ++ '%' :: body') (Args.insert k v args)) ∧
      ∀ c ∈ (scan body).head?, c ∈ numeric → ∀ string args,
        text string (pre ++ '%' :: body) args ≠ text string (pre ++ '%' :: body') (Args.insert k v args) := by
  constructor
  · intro hall
    have hconst : Args.insert k v (fun _ => v) = fun _ => v := by
      funext i
      unfold Args.insert
      split
      · rfl
      · split
        · rfl
        · rfl
    have heq := hall (fun _ => []) fun _ => v
    rw [hconst] at heq
    obtain ⟨p, hp⟩ := hpre.writes (fun _ => []) fun _ => v
    obtain ⟨t, ht⟩ := exists_writes (fun _ => []) ('%' :: body) fun _ => v
    obtain ⟨t', ht'⟩ := exists_writes (fun _ => []) ('%' :: body') fun _ => v
    unfold text at heq
    rw [(hp _ _ _ (fun _ _ => rfl) ht).text, (hp _ _ _ (fun _ _ => rfl) ht').text] at heq
    have hsame : t = t' := List.append_cancel_left (Option.some.inj heq)
    rcases h.scan with ⟨mid, hno, hstar⟩ | ⟨ds, tail, hds, hno, hscan, hstar⟩
    · exact star_ne (fun _ => rfl) hno hstar ht ht' hsame
    · obtain ⟨s, hs⟩ := exists_writes (fun _ => []) tail fun _ => v
      obtain ⟨n, hwrites⟩ := writes_star hscan (fun _ => []) fun _ => v
      obtain ⟨n', hwrites'⟩ := writes_star hstar (fun _ => []) fun _ => v
      have hnumber := hwrites _ ((hs.literals hno).literal (show '.' ≠ '%' by decide))
      have hstars := hwrites' _ ((hs.literal (show '*' ≠ '%' by decide)).literal (show '.' ≠ '%' by decide))
      rw [ht.unique hnumber, ht'.unique hstars] at hsame
      simp only [List.cons.injEq, true_and] at hsame
      exact hds (List.append_cancel_right hsame)
  · intro c hc hnumeric string args heq
    have hagree : Agree k args (Args.insert k v args) := by
      intro i hi
      unfold Args.insert
      rw [if_pos hi]
    obtain ⟨p, hp⟩ := hpre.writes string args
    obtain ⟨t, ht⟩ := exists_writes string ('%' :: body) (Args.drop k args)
    obtain ⟨t', ht'⟩ := exists_writes string ('%' :: body') (Args.drop k (Args.insert k v args))
    unfold text at heq
    rw [(hp _ _ _ (fun _ _ => rfl) ht).text, (hp _ _ _ hagree ht').text] at heq
    obtain ⟨rest, hscan⟩ : ∃ rest, scan body = c :: rest := List.head?_eq_some_iff.mp hc
    have hstar : ∃ tail, scan body' = '*' :: tail := by
      rcases h.scan with ⟨mid, -, hstar⟩ | ⟨ds, tail, -, -, -, hstar⟩
      · exact ⟨_, hstar⟩
      · exact ⟨_, hstar⟩
    exact numeric_ne hscan hnumeric hstar.choose_spec ht ht' (List.append_cancel_left (Option.some.inj heq))

/-- `%3d` and `%*d`. -/
theorem star_never_d : ¬ ∀ string args, text string ['%', '3', 'd'] args = text string ['%', '*', 'd'] (Args.insert 0 3 args) := by
  have hvalue : (skipAtoi ['3'] 0).1 = 3 := by decide +kernel
  have h := @Replaced.width [] ['3'] ['d'] (fun c hc => absurd hc List.not_mem_nil)
    ⟨fun c hc => by rw [List.mem_singleton.mp hc]; decide, by decide⟩ (by decide) (fun c hc => by cases hc; decide)
  rw [hvalue] at h
  exact (star_never Rounds.nil h).1

/-- `printf("%*d", 3, 4)` writes its format. -/
theorem star_written : text (fun _ => []) ['%', '3', 'd'] (fun _ => 4) = some [' ', ' ', '4'] ∧
    text (fun _ => []) ['%', '*', 'd'] (Args.insert 0 3 fun _ => 4) = some ['%', '*', 'd'] := by
  decide +kernel

end Vsprintf

end Linux011.Kernel
