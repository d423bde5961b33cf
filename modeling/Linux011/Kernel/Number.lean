import Linux011.Kernel.Vsprintf

/-!
# The text of a number

What `number` appends, by its parts (`numberText`). The field is filled up before the sign, behind it or at
the end; the one variable that the source counts down in its three loops is positive in one of them at most.
-/

namespace Linux011.Kernel

namespace Vsprintf

/-! ## Loops -/

/-- A difference that fits. -/
theorem toInt_sub_of_fits {a b : Int32} (hlo : -2 ^ 31 ≤ a.toInt - b.toInt) (hhi : a.toInt - b.toInt < 2 ^ 31) :
    (a - b).toInt = a.toInt - b.toInt := by
  rw [Int32.toInt_sub]
  exact Int.bmod_eq_of_le (by omega) (by omega)

theorem toInt_pred {a b : Int32} (h : a < b) : (b - 1).toInt = b.toInt - 1 := by
  have hone : (1 : Int32).toInt = 1 := rfl
  have hlt := Int32.lt_iff_toInt_lt.mp h
  have ha := a.le_toInt
  have hb := b.toInt_lt
  rw [toInt_sub_of_fits (by rw [hone]; omega) (by rw [hone]; omega), hone]

theorem fill_eq (c : Char) (a b : Int32) :
    fill c a b = (List.replicate (b.toInt - a.toInt).toNat c, if a < b then a - 1 else b - 1) := by
  unfold fill
  generalize hn : (b.toInt - a.toInt).toNat = n
  induction n generalizing b with
  | zero =>
    have hle : ¬ a < b := by
      rw [Int32.lt_iff_toInt_lt]
      omega
    rw [if_neg hle]
    rfl
  | succ n ih =>
    have hlt : a < b := by
      rw [Int32.lt_iff_toInt_lt]
      omega
    have hpred := toInt_pred hlt
    rw [fillLoop, if_pos hlt, ih (b - 1) (by omega), if_pos hlt]
    simp only [List.replicate_succ]
    split
    · rfl
    · next hlast =>
      have hsame : b - 1 = a := by
        rw [Int32.lt_iff_toInt_lt] at hlast hlt
        exact Int32.toInt_inj.mp (by omega)
      rw [hsame]

/-- The digits come in the order of their weight. -/
theorem digitLoop_eq {digits : List Char} {base room num : Nat} {tmp : List Char} (hbase : 2 ≤ base) (hroom : num < base ^ room) :
    digitLoop digits base room num tmp = some (tmp ++ (Nat.digits base num).map (digits.getD · '0')) := by
  induction room generalizing num tmp with
  | zero =>
    obtain rfl : num = 0 := by simpa using hroom
    simp [digitLoop]
  | succ room ih =>
    unfold digitLoop
    split
    · next hzero => simp [hzero]
    · next hpos =>
      have hquot : num / base < base ^ room := Nat.div_lt_of_lt_mul (by rwa [← Nat.pow_succ'])
      rw [ih hquot, Nat.digits_def' hbase (Nat.pos_of_ne_zero hpos), List.map_cons, List.append_assoc]
      rfl

/-! ## The parts of the text -/

section

variable (num base size precision : Int32) (type : Flags)

def digitChars : List Char := if type.small then lower else upper

/-- The number without its sign. -/
def magnitude : Nat := if type.sign then num.toInt.natAbs else num.toUInt32.toNat

/-- The digits without leading zeroes. -/
def numerals : List Char :=
  if magnitude num type = 0 then ['0']
  else ((Nat.digits base.toInt.toNat (magnitude num type)).map ((digitChars type).getD · '0')).reverse

def signText : List Char :=
  if type.sign ∧ num < 0 then ['-'] else if type.plus then ['+'] else if type.space then [' '] else []

def specialText : List Char :=
  if type.special then
    if base = 8 then ['0'] else if base = 16 then ['0', if type.small then 'x' else 'X'] else []
  else []

/-- The length of the text without the filling. -/
def textLength : Int :=
  (signText num type).length + (specialText base type).length + max precision.toInt (numerals num base type).length

def filling (c : Char) : List Char := List.replicate (size.toInt - textLength num base precision type).toNat c

/-- The digits, and the zeroes that the precision asks for. -/
def precise : List Char :=
  List.replicate (precision.toInt - (numerals num base type).length).toNat '0' ++ numerals num base type

def numberText : List Char :=
  if type.left then
    signText num type ++ specialText base type ++ precise num base precision type ++
      filling num base size precision type ' '
  else if type.zeropad then
    signText num type ++ specialText base type ++ filling num base size precision type '0' ++
      precise num base precision type
  else
    filling num base size precision type ' ' ++ signText num type ++ specialText base type ++
      precise num base precision type

/-- What is left of the field when sign, prefix and digits are taken off. -/
def restOfField : Int32 :=
  let i := Int32.ofNat (numerals num base type).length
  takeRoom (signText num type) base size type - if i > precision then i else precision

/-- How often the loops before the last one count the rest down. -/
def countdown : Int := if type.left then 0 else if type.zeropad then 1 else 2

end

variable {num base size precision : Int32} {type : Flags}

/-! ## Digits -/

/-- The number that is divided, also for the smallest one. -/
theorem takeSign_toNat (num : Int32) (type : Flags) : (takeSign num type).2.toUInt32.toNat = magnitude num type := by
  have hint : num.toInt = num.toBitVec.toInt := rfl
  have hcases := BitVec.toInt_eq_toNat_cond num.toBitVec
  have hlt := num.toBitVec.isLt
  have hzero : (0 : Int32).toInt = 0 := rfl
  have hltz : num < 0 ↔ num.toInt < 0 := by rw [Int32.lt_iff_toInt_lt, hzero]
  unfold takeSign magnitude
  rw [← Int32.toNat_toBitVec, ← Int32.toNat_toBitVec]
  by_cases hneg : type.sign = true ∧ num < 0
  · have hlow := hltz.mp hneg.2
    rw [if_pos hneg, if_pos hneg.1]
    show (-num).toBitVec.toNat = _
    rw [Int32.toBitVec_neg, BitVec.toNat_neg]
    split at hcases <;> omega
  · rw [if_neg hneg]
    show num.toBitVec.toNat = _
    by_cases hsign : type.sign = true
    · have hge : ¬ num.toInt < 0 := fun h => hneg ⟨hsign, hltz.mpr h⟩
      rw [if_pos hsign]
      split at hcases <;> omega
    · rw [if_neg hsign]

theorem magnitude_lt (num : Int32) (type : Flags) : magnitude num type < 2 ^ 32 := by
  rw [← takeSign_toNat]
  exact UInt32.toNat_lt _

theorem magnitude_eq_zero : magnitude num type = 0 ↔ (takeSign num type).2 = 0 := by
  rw [← takeSign_toNat]
  constructor
  · intro h
    rw [← Int32.toNat_toBitVec] at h
    exact Int32.toBitVec.inj (BitVec.eq_of_toNat_eq h)
  · intro h
    rw [h]
    rfl

theorem numerals_length (num : Int32) (type : Flags) (hbase : 2 ≤ base.toInt) :
    1 ≤ (numerals num base type).length ∧ (numerals num base type).length ≤ 32 := by
  have hnat : 2 ≤ base.toInt.toNat := by omega
  unfold numerals
  split
  · decide
  · next hpos =>
    rw [List.length_reverse, List.length_map]
    refine ⟨List.length_pos_of_ne_nil (Nat.digits_ne_nil_iff_ne_zero.mpr hpos), ?_⟩
    rw [Nat.digits_length_le_iff hnat]
    exact (magnitude_lt num type).trans_le (Nat.pow_le_pow_left hnat 32)

theorem numerals_toInt (num : Int32) (type : Flags) (hbase : 2 ≤ base.toInt) :
    (Int32.ofNat (numerals num base type).length).toInt = (numerals num base type).length :=
  Int32.toInt_ofNat_of_lt (by have := (numerals_length num type hbase).2; omega)

/-- `tmp` has room for all digits. -/
theorem makeTmp_eq (num : Int32) (type : Flags) (hbase : 2 ≤ base.toInt) :
    makeTmp (digitChars type) base (takeSign num type).2 = some (numerals num base type).reverse := by
  have hnat : 2 ≤ base.toInt.toNat := by omega
  unfold makeTmp numerals
  rw [takeSign_toNat]
  by_cases hzero : magnitude num type = 0
  · rw [if_pos hzero, if_pos (magnitude_eq_zero.mp hzero)]
    rfl
  · rw [if_neg hzero, if_neg (fun h => hzero (magnitude_eq_zero.mpr h)), digitLoop_eq hnat, List.reverse_reverse,
      List.nil_append]
    exact (magnitude_lt num type).trans_le
      ((Nat.pow_le_pow_left hnat 32).trans (Nat.pow_le_pow_right (by omega) (by decide)))

/-! ## The field -/

theorem signText_length (num : Int32) (type : Flags) :
    ((signText num type).length : Int) = if signText num type ≠ [] then 1 else 0 := by
  unfold signText
  split
  · rfl
  · split
    · rfl
    · split
      · rfl
      · rfl

theorem specialText_length (base : Int32) (type : Flags) : ((specialText base type).length : Int) =
    if type.special then if base = 16 then 2 else if base = 8 then 1 else 0 else 0 := by
  unfold specialText
  split
  · split
    · next h8 =>
      rw [if_neg (by rw [h8]; decide)]
      rfl
    · split
      · rfl
      · rfl
  · rfl

/-- The precision that is used. -/
theorem precision_toInt (num precision : Int32) (type : Flags) (hbase : 2 ≤ base.toInt) :
    (if Int32.ofNat (numerals num base type).length > precision then Int32.ofNat (numerals num base type).length
      else precision).toInt = max precision.toInt (numerals num base type).length := by
  have hi := numerals_toInt num type hbase
  split
  · next hgt =>
    have hlt := Int32.lt_iff_toInt_lt.mp hgt
    omega
  · next hngt =>
    have hnlt := mt Int32.lt_iff_toInt_lt.mpr hngt
    omega

/-- The rest is exact if it fits. -/
theorem restOfField_toInt (hbase : 2 ≤ base.toInt)
    (hfits : -2 ^ 31 ≤ size.toInt - textLength num base precision type) :
    (restOfField num base size precision type).toInt = size.toInt - textLength num base precision type := by
  have hlow := size.le_toInt
  have hhigh := size.toInt_lt
  unfold textLength at hfits ⊢
  obtain ⟨hpos, -⟩ := numerals_length num type hbase
  have hone : (1 : Int32).toInt = 1 := rfl
  have htwo : (2 : Int32).toInt = 2 := rfl
  have hmax := precision_toInt num precision type hbase
  have hsmall := signText_length num type
  have hsign : (if signText num type ≠ [] then size - 1 else size).toInt = size.toInt - (signText num type).length := by
    split
    · next hsome =>
      rw [if_pos hsome] at hsmall
      rw [toInt_sub_of_fits (by omega) (by omega), hone, hsmall]
    · next hnone =>
      rw [if_neg hnone] at hsmall
      omega
  have hsign_le : (signText num type).length ≤ 1 := by split at hsmall <;> omega
  have hspecial_nonneg : (0 : Int) ≤ (specialText base type).length := Int.natCast_nonneg _
  have hsign_nonneg : (0 : Int) ≤ (signText num type).length := Int.natCast_nonneg _
  unfold restOfField takeRoom
  generalize (if signText num type ≠ [] then size - 1 else size) = s₁ at hsign ⊢
  have hspecial : (if type.special then if base = 16 then s₁ - 2 else if base = 8 then s₁ - 1 else s₁ else s₁).toInt =
      s₁.toInt - (specialText base type).length := by
    have hlength := specialText_length base type
    split
    · next hsome =>
      rw [if_pos hsome] at hlength
      split
      · next h16 =>
        rw [if_pos h16] at hlength
        rw [toInt_sub_of_fits (by omega) (by omega), htwo, hlength]
      · next h16 =>
        rw [if_neg h16] at hlength
        split
        · next h8 =>
          rw [if_pos h8] at hlength
          rw [toInt_sub_of_fits (by omega) (by omega), hone, hlength]
        · next h8 =>
          rw [if_neg h8] at hlength
          omega
    · next hnone =>
      rw [if_neg hnone] at hlength
      omega
  simp only
  rw [toInt_sub_of_fits (by rw [hspecial, hmax]; omega) (by rw [hspecial, hmax]; omega), hspecial, hmax]
  omega

/-- What is left after a filling that has nothing to fill or fills all. -/
theorem fill_rest {c : Char} {b : Int32} (h : -2 ^ 31 < b.toInt) : (fill c 0 b).2.toInt = min b.toInt 0 - 1 := by
  have hzero : (0 : Int32).toInt = 0 := rfl
  have hone : (1 : Int32).toInt = 1 := rfl
  rw [fill_eq]
  simp only
  split
  · next hlt =>
    rw [Int32.lt_iff_toInt_lt, hzero] at hlt
    have hminus : (0 - 1 : Int32).toInt = -1 := rfl
    rw [hminus]
    omega
  · next hle =>
    rw [Int32.lt_iff_toInt_lt, hzero] at hle
    rw [toInt_sub_of_fits (by omega) (by omega)]
    omega

theorem fill_text (c : Char) (b : Int32) : (fill c 0 b).1 = List.replicate b.toInt.toNat c := by
  have hzero : (0 : Int32).toInt = 0 := rfl
  rw [fill_eq, hzero, Int.sub_zero]

/-- A filling with nothing to fill. -/
theorem fill_nil {c : Char} {b : Int32} (h : b.toInt ≤ 0) : (fill c 0 b).1 = [] := by
  rw [fill_text, Int.toNat_of_nonpos h]
  rfl

/-- The sign of the source. -/
theorem takeSign_fst (num : Int32) (type : Flags) : (takeSign num type).1 = signText num type := by
  unfold takeSign signText
  split
  · rfl
  · rfl

theorem specialPrefix_eq (base : Int32) (type : Flags) :
    specialPrefix (digitChars type) base type = specialText base type := by
  have hdigit : (digitChars type).getD 33 '0' = if type.small then 'x' else 'X' := by
    unfold digitChars
    split
    · rfl
    · rfl
  unfold specialPrefix specialText
  rw [hdigit]

theorem precise_eq (num precision : Int32) (type : Flags) (hbase : 2 ≤ base.toInt) :
    (fill '0' (Int32.ofNat (numerals num base type).length)
      (if Int32.ofNat (numerals num base type).length > precision then Int32.ofNat (numerals num base type).length
        else precision)).1 ++ numerals num base type = precise num base precision type := by
  unfold precise
  rw [fill_eq]
  simp only
  rw [precision_toInt num precision type hbase, numerals_toInt num type hbase]
  congr 2
  omega

theorem number_put (hbase : 2 ≤ base.toInt ∧ base.toInt ≤ 36) : number num base size precision type =
    some (putNumber (if type.left then { type with zeropad := false } else type)
      (restOfField num base size precision type) (signText num type) (specialText base type)
      (precise num base precision type)) := by
  have htwo : (2 : Int32).toInt = 2 := rfl
  have hmax : (36 : Int32).toInt = 36 := rfl
  have hin : ¬ (base < 2 ∨ base > 36) := by
    rw [GT.gt, Int32.lt_iff_toInt_lt, Int32.lt_iff_toInt_lt]
    omega
  have hsigns : takeSign num (if type.left then { type with zeropad := false } else type) = takeSign num type := by
    split <;> rfl
  have hrooms : ∀ sign, takeRoom sign base size (if type.left then { type with zeropad := false } else type) =
      takeRoom sign base size type := by
    intro sign
    split <;> rfl
  have hprefixes : specialPrefix (digitChars type) base (if type.left then { type with zeropad := false } else type) =
      specialText base type := by
    rw [← specialPrefix_eq]
    split <;> rfl
  have hdigits : (if type.small then lower else upper) = digitChars type := rfl
  have hmake := makeTmp_eq num type hbase.1
  have hput := precise_eq num precision type hbase.1
  unfold number
  dsimp only
  rw [if_neg hin, hsigns, hdigits, hmake]
  simp only [Option.bind_eq_bind, Option.bind_some, hrooms, hprefixes, takeSign_fst, List.length_reverse,
    List.reverse_reverse, hput]
  rfl

theorem precise_length (num base precision : Int32) (type : Flags) :
    ((precise num base precision type).length : Int) = max precision.toInt (numerals num base type).length := by
  unfold precise
  rw [List.length_append, List.length_replicate]
  omega

/-- The field holds the text, and fills up what it leaves. -/
theorem numberText_length (num base size precision : Int32) (type : Flags) :
    ((numberText num base size precision type).length : Int) = max size.toInt (textLength num base precision type) := by
  have hprecise := precise_length num base precision type
  have hfilling : ∀ c, ((filling num base size precision type c).length : Int) =
      max (size.toInt - textLength num base precision type) 0 := by
    intro c
    unfold filling
    rw [List.length_replicate]
    omega
  have htext : textLength num base precision type = (signText num type).length + (specialText base type).length +
      max precision.toInt (numerals num base type).length := rfl
  unfold numberText
  split
  · simp only [List.length_append]
    have := hfilling ' '
    omega
  · split
    · simp only [List.length_append]
      have := hfilling '0'
      omega
    · simp only [List.length_append]
      have := hfilling ' '
      omega

/-- The three loops fill the field once, where the flags want it. -/
theorem putNumber_eq {rest : Int32} (hrest : rest.toInt = size.toInt - textLength num base precision type)
    (hfits : -2 ^ 31 + countdown type ≤ rest.toInt) :
    putNumber (if type.left then { type with zeropad := false } else type) rest (signText num type)
      (specialText base type) (precise num base precision type) = numberText num base size precision type := by
  have hfilling : ∀ c, (fill c 0 rest).1 = filling num base size precision type c := by
    intro c
    rw [fill_text, hrest]
    rfl
  unfold countdown at hfits
  unfold numberText putNumber
  by_cases hleft : type.left = true
  · -- only the last loop runs
    simp [hleft, hfilling]
  · rw [if_neg hleft] at hfits
    by_cases hzeropad : type.zeropad = true
    · -- the loop behind the sign fills, and leaves nothing to the last one
      rw [if_pos hzeropad] at hfits
      have hdone := fill_rest (c := '0') (b := rest) (by omega)
      have hnil : (fill ' ' 0 (fill '0' 0 rest).2).1 = [] := fill_nil (by omega)
      simp [hleft, hzeropad, hfilling, hnil]
    · -- the first loop fills, and leaves nothing to the others
      rw [if_neg hzeropad] at hfits
      have hdone := fill_rest (c := ' ') (b := rest) (by omega)
      have hnil : (fill ' ' 0 (fill ' ' 0 rest).2).1 = [] := fill_nil (by omega)
      have hdone' := fill_rest (c := ' ') (b := (fill ' ' 0 rest).2) (by omega)
      have hnil' : (fill ' ' 0 (fill ' ' 0 (fill ' ' 0 rest).2).2).1 = [] := fill_nil (by omega)
      simp [hleft, hzeropad, hfilling, hnil, hnil']

/-! ## The text -/

/-- What `number` appends, as long as the count of the field stays in 32 bits. -/
theorem number_eq (num base size precision : Int32) (type : Flags) (hbase : 2 ≤ base.toInt ∧ base.toInt ≤ 36)
    (hfits : -2 ^ 31 + countdown type ≤ size.toInt - textLength num base precision type) :
    number num base size precision type = some (numberText num base size precision type) ∧
      ((numberText num base size precision type).length : Int) = max size.toInt (textLength num base precision type) := by
  have hcountdown : 0 ≤ countdown type := by
    unfold countdown
    split
    · decide
    · split <;> decide
  have hroom : -2 ^ 31 ≤ size.toInt - textLength num base precision type := by omega
  have hrest := restOfField_toInt hbase.1 hroom
  rw [number_put hbase, putNumber_eq hrest (by rw [hrest]; exact hfits)]
  exact ⟨rfl, numberText_length num base size precision type⟩

/-- `-2147483648` in a field of fifteen, behind its sign and zeroes. -/
theorem number_eq_smallest :
    number (-2147483648) 10 15 (-1) { Flags.none with sign := true, zeropad := true } =
      some (numberText (-2147483648) 10 15 (-1) { Flags.none with sign := true, zeropad := true }) ∧
      ((numberText (-2147483648) 10 15 (-1) { Flags.none with sign := true, zeropad := true }).length : Int) =
        max 15 (textLength (-2147483648) 10 (-1) { Flags.none with sign := true, zeropad := true }) :=
  number_eq (-2147483648) 10 15 (-1) { Flags.none with sign := true, zeropad := true } (by decide) (by decide +kernel)

/-- A field of -1073741823 and a precision of 1073741823: the count passes -2^31, and the last loop puts
2^31 - 1 blanks behind a text of 2^30. -/
theorem number_overflow : ¬ (number 0 10 (-1073741823) 1073741823 { Flags.none with plus := true } =
      some (numberText 0 10 (-1073741823) 1073741823 { Flags.none with plus := true })) := by
  intro htext
  have hrest : restOfField 0 10 (-1073741823) 1073741823 { Flags.none with plus := true } = -2147483647 := by
    decide +kernel
  rw [number_put (by decide), hrest] at htext
  have hfirst : fill ' ' 0 (-2147483647) = ([], -2147483648) := by
    rw [fill_eq]
    rfl
  have hsecond : fill ' ' 0 (-2147483648) = ([], 2147483647) := by
    rw [fill_eq]
    rfl
  have hblanks : (2147483647 : Int32).toInt.toNat = 2147483647 := rfl
  have hlast : (fill ' ' 0 2147483647).1.length = 2147483647 := by
    rw [fill_text, List.length_replicate, hblanks]
  have hright := numberText_length 0 10 (-1073741823) 1073741823 { Flags.none with plus := true }
  have hlength : textLength 0 10 1073741823 { Flags.none with plus := true } = 1073741824 := by
    decide +kernel
  have hfield : (-1073741823 : Int32).toInt = -1073741823 := rfl
  rw [← Option.some.inj htext, hlength, hfield] at hright
  have hnoleft : ({ Flags.none with plus := true } : Flags).left = false := rfl
  have hnozeropad : ({ Flags.none with plus := true } : Flags).zeropad = false := rfl
  rw [hnoleft] at hright
  simp only [putNumber, hnoleft, hnozeropad, hfirst, hsecond, hlast, List.length_append, Bool.false_eq_true, if_false,
    Bool.or_self, Bool.not_false, if_true] at hright
  omega

end Vsprintf

end Linux011.Kernel
