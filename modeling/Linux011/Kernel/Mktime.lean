import Mathlib.Algebra.BigOperators.Group.Finset.Basic
import Mathlib.Algebra.Order.BigOperators.Group.Finset

/-!
# kernel/mktime.c

`kernel_mktime`, and what `time_init` of `init/main.c` gives it. A `Date` is a date and a time of the
calendar; its `seconds` are counted year by year and month by month. The `long` of the source has 32 bits,
and the seconds of the years up to 2069 do not fit.
-/

namespace Linux011.Kernel

open Finset

/-- `struct tm`, as far as `kernel_mktime` reads it. -/
structure Tm where
  tmSec : Int32
  tmMin : Int32
  tmHour : Int32
  tmMday : Int32
  tmMon : Int32
  tmYear : Int32

/-- `MINUTE` -/
def minute : Int32 := 60
/-- `HOUR` -/
def hour : Int32 := 60 * minute
/-- `DAY` -/
def day : Int32 := 24 * hour
/-- `YEAR` -/
def year : Int32 := 365 * day

def month : List Int32 :=
  [0,
    day * 31,
    day * (31 + 29),
    day * (31 + 29 + 31),
    day * (31 + 29 + 31 + 30),
    day * (31 + 29 + 31 + 30 + 31),
    day * (31 + 29 + 31 + 30 + 31 + 30),
    day * (31 + 29 + 31 + 30 + 31 + 30 + 31),
    day * (31 + 29 + 31 + 30 + 31 + 30 + 31 + 31),
    day * (31 + 29 + 31 + 30 + 31 + 30 + 31 + 31 + 30),
    day * (31 + 29 + 31 + 30 + 31 + 30 + 31 + 31 + 30 + 31),
    day * (31 + 29 + 31 + 30 + 31 + 30 + 31 + 31 + 30 + 31 + 30)]

/-- `kernel_mktime`, with `none` for an access outside of the table. -/
def kernelMktime (tm : Tm) : Option Int32 := do
  let y := if tm.tmYear ≥ 70 then tm.tmYear - 70 else tm.tmYear + 100 - 70
  let start ← if 0 ≤ tm.tmMon then month[tm.tmMon.toInt.toNat]? else none
  let res := year * y + day * ((y + 1) / 4)
  let res := res + start
  let res := if tm.tmMon > 1 ∧ (y + 2) % 4 ≠ 0 then res - day else res
  let res := res + day * (tm.tmMday - 1)
  let res := res + hour * tm.tmHour
  let res := res + minute * tm.tmMin
  return res + tm.tmSec

/-- `BCD_TO_BIN` -/
def bcdToBin (val : Int32) : Int32 := (val &&& (15 : Int32)) + (val >>> (4 : Int32)) * 10

/-- `time_init` up to the call of `kernel_mktime`, when the seconds do not change while it reads the clock. -/
def timeInit (cmosRead : Nat → UInt8) : Tm :=
  let read (addr : Nat) := bcdToBin (Int32.ofNat (cmosRead addr).toNat)
  ⟨read 0, read 2, read 4, read 7, read 8 - 1, read 9⟩

/-! ## The calendar -/

def leap (y : Nat) : Bool := y % 4 = 0 ∧ (y % 100 ≠ 0 ∨ y % 400 = 0)

/-- The days of month `m`, from 0 for January. -/
def monthLength (y m : Nat) : Nat :=
  if m = 1 then (if leap y then 29 else 28)
  else if m = 3 ∨ m = 5 ∨ m = 8 ∨ m = 10 then 30
  else 31

def yearLength (y : Nat) : Nat := ∑ m ∈ range 12, monthLength y m

/-- A date and a time that `tm_year` can give. -/
structure Date where
  year : Nat
  mon : Nat
  mday : Nat
  hour : Nat
  min : Nat
  sec : Nat
  year_ge : 1970 ≤ year := by decide
  year_le : year ≤ 2069 := by decide
  mon_lt : mon < 12 := by decide
  mday_pos : 1 ≤ mday := by decide
  mday_le : mday ≤ monthLength year mon := by decide
  hour_lt : hour < 24 := by decide
  min_lt : min < 60 := by decide
  sec_lt : sec < 60 := by decide

namespace Date

/-- The days from the first of January 1970. -/
def days (d : Date) : Nat :=
  (∑ k ∈ range (d.year - 1970), yearLength (1970 + k)) + (∑ m ∈ range d.mon, monthLength d.year m) + (d.mday - 1)

def secondOfDay (d : Date) : Nat := 3600 * d.hour + 60 * d.min + d.sec

def seconds (d : Date) : Nat := 86400 * d.days + d.secondOfDay

/-- `tm_year` has two digits. -/
def tm (d : Date) : Tm where
  tmSec := .ofNat d.sec
  tmMin := .ofNat d.min
  tmHour := .ofNat d.hour
  tmMday := .ofNat d.mday
  tmMon := .ofNat d.mon
  tmYear := .ofNat (d.year % 100)

/-- The registers of the clock, which counts in decimal digits of four bits. -/
def cmos (d : Date) (addr : Nat) : UInt8 :=
  let bcd (n : Nat) : UInt8 := .ofNat (n / 10 * 16 + n % 10)
  match addr with
  | 0 => bcd d.sec
  | 2 => bcd d.min
  | 4 => bcd d.hour
  | 7 => bcd d.mday
  | 8 => bcd (d.mon + 1)
  | 9 => bcd (d.year % 100)
  | _ => 0

def Before (a b : Date) : Prop :=
  a.year < b.year ∨ a.year = b.year ∧ (a.mon < b.mon ∨ a.mon = b.mon ∧ (a.mday < b.mday ∨ a.mday = b.mday ∧
    (a.hour < b.hour ∨ a.hour = b.hour ∧ (a.min < b.min ∨ a.min = b.min ∧ a.sec < b.sec))))

instance (a b : Date) : Decidable (a.Before b) := inferInstanceAs (Decidable (_ ∨ _))

/-- The last second that a `long` can count to. -/
def last : Date := { year := 2038, mon := 0, mday := 19, hour := 3, min := 14, sec := 7 }

end Date

/-! ## Counting days -/

/-- A part of a sum and the next term. -/
theorem sum_range_add_le (f : Nat → Nat) {a b : Nat} (h : a < b) : ∑ k ∈ range a, f k + f a ≤ ∑ k ∈ range b, f k := by
  rw [← sum_range_succ]
  exact sum_le_sum_of_subset (range_subset_range.mpr h)

theorem yearLength_eq (y : Nat) : yearLength y = if leap y then 366 else 365 := by
  unfold yearLength
  cases h : leap y with
  | false => simp [sum_range_succ, monthLength, h]
  | true => simp [sum_range_succ, monthLength, h]

/-- Every fourth year is leap, 2000 as well. -/
theorem leap_of_le {y : Nat} (h : y ≤ 2069) (h' : 1970 ≤ y) : leap y = true ↔ y % 4 = 0 := by
  unfold leap
  rw [decide_eq_true_eq]
  omega

theorem sum_yearLength {n : Nat} (h : n ≤ 100) :
    ∑ k ∈ range n, yearLength (1970 + k) = 365 * n + (n + 1) / 4 := by
  induction n with
  | zero => rfl
  | succ n ih =>
    rw [sum_range_succ, ih (by omega), yearLength_eq]
    have hleap := leap_of_le (show 1970 + n ≤ 2069 by omega) (by omega)
    split
    · next hyes =>
      have hfour := hleap.mp hyes
      omega
    · next hno =>
      have hfour : (1970 + n) % 4 ≠ 0 := fun h => hno (hleap.mpr h)
      omega

namespace Date

variable {a b d : Date}

/-- A date lies within its year. -/
theorem within_year (d : Date) : (∑ m ∈ range d.mon, monthLength d.year m) + d.mday ≤ yearLength d.year :=
  (Nat.add_le_add_left d.mday_le _).trans (sum_range_add_le _ d.mon_lt)

theorem days_lt_of_year (h : a.year < b.year) : a.days < b.days := by
  have hwithin := a.within_year
  have hpos := a.mday_pos
  have hge := a.year_ge
  have hyears := sum_range_add_le (fun k => yearLength (1970 + k)) (show a.year - 1970 < b.year - 1970 by omega)
  rw [show 1970 + (a.year - 1970) = a.year by omega] at hyears
  unfold days
  omega

theorem days_lt_of_mon (hy : a.year = b.year) (h : a.mon < b.mon) : a.days < b.days := by
  have hle := a.mday_le
  have hpos := a.mday_pos
  have hmonths := sum_range_add_le (monthLength a.year) h
  unfold days
  rw [← hy]
  omega

theorem days_lt_of_mday (hy : a.year = b.year) (hm : a.mon = b.mon) (h : a.mday < b.mday) : a.days < b.days := by
  have hpos := a.mday_pos
  unfold days
  rw [← hy, ← hm]
  omega

theorem secondOfDay_lt (d : Date) : d.secondOfDay < 86400 := by
  have hh := d.hour_lt
  have hm := d.min_lt
  have hs := d.sec_lt
  unfold secondOfDay
  omega

theorem seconds_lt (h : a.Before b) : a.seconds < b.seconds := by
  have hday : a.days < b.days → a.seconds < b.seconds := by
    intro hlt
    have := a.secondOfDay_lt
    unfold seconds
    omega
  rcases h with h | ⟨hy, h | ⟨hm, h | ⟨hd, h⟩⟩⟩
  · exact hday (days_lt_of_year h)
  · exact hday (days_lt_of_mon hy h)
  · exact hday (days_lt_of_mday hy hm h)
  · have hsame : a.days = b.days := by
      unfold days
      rw [hy, hm, hd]
    have hs := a.sec_lt
    have hmin := a.min_lt
    unfold seconds secondOfDay
    omega

/-- The times of one day. -/
theorem before_time (h : a.secondOfDay < b.secondOfDay) :
    a.hour < b.hour ∨ a.hour = b.hour ∧ (a.min < b.min ∨ a.min = b.min ∧ a.sec < b.sec) := by
  have hs := b.sec_lt
  have hmin := b.min_lt
  unfold secondOfDay at h
  rcases Nat.lt_trichotomy a.hour b.hour with hlt | heq | hgt
  · exact .inl hlt
  · refine .inr ⟨heq, ?_⟩
    rcases Nat.lt_trichotomy a.min b.min with hlt | hmeq | hgt
    · exact .inl hlt
    · exact .inr ⟨hmeq, by omega⟩
    · omega
  · omega

theorem before_or (a b : Date) : a.Before b ∨ b.Before a ∨ a.seconds = b.seconds := by
  rcases Nat.lt_trichotomy a.year b.year with h | hy | h
  · exact .inl (.inl h)
  · rcases Nat.lt_trichotomy a.mon b.mon with h | hm | h
    · exact .inl (.inr ⟨hy, .inl h⟩)
    · rcases Nat.lt_trichotomy a.mday b.mday with h | hd | h
      · exact .inl (.inr ⟨hy, .inr ⟨hm, .inl h⟩⟩)
      · have hdays : a.days = b.days := by
          unfold days
          rw [hy, hm, hd]
        rcases Nat.lt_trichotomy a.secondOfDay b.secondOfDay with h | hs | h
        · exact .inl (.inr ⟨hy, .inr ⟨hm, .inr ⟨hd, before_time h⟩⟩⟩)
        · right
          right
          unfold seconds
          rw [hdays, hs]
        · exact .inr (.inl (.inr ⟨hy.symm, .inr ⟨hm.symm, .inr ⟨hd.symm, before_time h⟩⟩⟩))
      · exact .inr (.inl (.inr ⟨hy.symm, .inr ⟨hm.symm, .inl h⟩⟩))
    · exact .inr (.inl (.inr ⟨hy.symm, .inl h⟩))
  · exact .inr (.inl (.inl h))

/-- The seconds count the dates in their order. -/
theorem before_iff : a.Before b ↔ a.seconds < b.seconds := by
  refine ⟨seconds_lt, fun h => ?_⟩
  rcases before_or a b with hbefore | hback | hsame
  · exact hbefore
  · exact absurd (seconds_lt hback) (Nat.lt_asymm h)
  · exact absurd hsame (Nat.ne_of_lt h)

/-! ## kernel_mktime -/

/-- The computations with the year, for the hundred years that the clock knows. -/
theorem year_table : ∀ n < 100, (if Int32.ofNat ((1970 + n) % 100) ≥ 70 then Int32.ofNat ((1970 + n) % 100) - 70
      else Int32.ofNat ((1970 + n) % 100) + 100 - 70) = Int32.ofNat n ∧
    (Int32.ofNat n + 1) / 4 = Int32.ofNat ((n + 1) / 4) ∧
    ((Int32.ofNat n + 2) % 4 = 0 ↔ (n + 2) % 4 = 0) := by
  decide +kernel

/-- The computations with the month, and the table `month`, which is the one of a leap year. -/
theorem month_table : ∀ m < 12, (Int32.ofNat m > 1 ↔ 1 < m) ∧ 0 ≤ Int32.ofNat m ∧ (Int32.ofNat m).toInt.toNat = m ∧
    month[m]? = some (Int32.ofNat (86400 * ∑ k ∈ range m, monthLength 2000 k)) := by
  decide +kernel

/-- The years since 1970, as the source counts them. -/
theorem years_eq (d : Date) : (if d.tm.tmYear ≥ 70 then d.tm.tmYear - 70 else d.tm.tmYear + 100 - 70) =
    Int32.ofNat (d.year - 1970) := by
  have hge := d.year_ge
  have hle := d.year_le
  have hone := (year_table (d.year - 1970) (by omega)).1
  rwa [show 1970 + (d.year - 1970) = d.year by omega] at hone

/-- The first magic offset. -/
theorem leapDays_eq (d : Date) : (Int32.ofNat (d.year - 1970) + 1) / 4 = Int32.ofNat ((d.year - 1970 + 1) / 4) := by
  have hle := d.year_le
  exact (year_table _ (by omega)).2.1

/-- The second one tells whether a day of the table is too much. -/
theorem adjust_iff (d : Date) : d.tm.tmMon > 1 ∧ (Int32.ofNat (d.year - 1970) + 2) % 4 ≠ 0 ↔
    1 < d.mon ∧ leap d.year = false := by
  have hge := d.year_ge
  have hle := d.year_le
  have hleap := leap_of_le hle hge
  refine and_congr (month_table d.mon d.mon_lt).1 ?_
  rw [Ne, (year_table _ (by omega)).2.2, ← Bool.not_eq_true, hleap]
  omega

/-- The table is right for leap years. -/
theorem month_eq (d : Date) : ∃ start, month[d.mon]? = some (Int32.ofNat start) ∧
    start = 86400 * ∑ m ∈ range d.mon, monthLength d.year m + if 1 < d.mon ∧ leap d.year = false then 86400 else 0 := by
  have hsum : ∀ m < 12, ∑ k ∈ range m, monthLength 2000 k =
      ∑ k ∈ range m, monthLength d.year k + if 1 < m ∧ leap d.year = false then 1 else 0 := by
    intro m _
    induction m with
    | zero => rfl
    | succ m ih =>
      rw [sum_range_succ, sum_range_succ, ih (by omega)]
      have h2000 : leap 2000 = true := by decide
      unfold monthLength
      rw [h2000]
      grind
  refine ⟨_, (month_table d.mon d.mon_lt).2.2.2, ?_⟩
  rw [hsum d.mon d.mon_lt]
  split
  · omega
  · omega

/-- The sum of the source, with the day that it takes back if `late`. -/
theorem sum_eq {n leaps start mday h mi s total : Nat} {late : Prop} [Decidable late] (hmday : 1 ≤ mday)
    (htotal : total + (if late then 86400 else 0) =
      365 * 86400 * n + 86400 * leaps + start + 86400 * (mday - 1) + 3600 * h + 60 * mi + s) :
    (if late then Kernel.year * .ofNat n + day * .ofNat leaps + .ofNat start - day
        else Kernel.year * .ofNat n + day * .ofNat leaps + .ofNat start) +
      day * (.ofNat mday - 1) + Kernel.hour * .ofNat h + minute * .ofNat mi + .ofNat s = Int32.ofNat total := by
  have hday : day = Int32.ofNat 86400 := rfl
  have hyear : Kernel.year = Int32.ofNat (365 * 86400) := rfl
  have hhour : Kernel.hour = Int32.ofNat 3600 := rfl
  have hminute : minute = Int32.ofNat 60 := rfl
  have hprev : Int32.ofNat mday - 1 = Int32.ofNat (mday - 1) := (Int32.ofNat_sub mday 1 hmday).symm
  have hsum := congrArg Int32.ofNat htotal
  simp only [Int32.ofNat_add, Int32.ofNat_mul] at hsum
  rw [hday, hyear, hhour, hminute, hprev]
  split
  · next hlate =>
    rw [if_pos hlate] at hsum
    rw [← Int32.add_sub_cancel (Int32.ofNat total) (Int32.ofNat 86400), hsum]
    grind
  · next hnot =>
    rw [if_neg hnot] at hsum
    grind

theorem kernelMktime_tm (d : Date) : kernelMktime d.tm = some (Int32.ofNat d.seconds) := by
  obtain ⟨start, hmonth, hstart⟩ := d.month_eq
  have hle := d.year_le
  have hyears := sum_yearLength (show d.year - 1970 ≤ 100 by omega)
  have hmday := d.mday_pos
  obtain ⟨-, hmon, hindex, -⟩ : _ ∧ 0 ≤ d.tm.tmMon ∧ d.tm.tmMon.toInt.toNat = d.mon ∧ _ := month_table d.mon d.mon_lt
  unfold kernelMktime
  simp only [years_eq, leapDays_eq, adjust_iff, hmon, hindex, hmonth, if_true, Option.bind_some, bind]
  refine congrArg some (sum_eq hmday ?_)
  unfold seconds days secondOfDay
  rw [hyears, hstart]
  omega

/-! ## The result -/

theorem timeInit_cmos (d : Date) : timeInit d.cmos = d.tm := by
  have hbcd : ∀ n < 100, bcdToBin (Int32.ofNat (UInt8.ofNat (n / 10 * 16 + n % 10)).toNat) = Int32.ofNat n := by
    decide +kernel
  have hmday : d.mday < 100 := by
    have hle := d.mday_le
    unfold monthLength at hle
    grind
  have hmon := d.mon_lt
  have hhour := d.hour_lt
  have hmin := d.min_lt
  have hsec := d.sec_lt
  have hprev : Int32.ofNat (d.mon + 1) - 1 = Int32.ofNat d.mon := by
    rw [Int32.ofNat_add]
    exact Int32.add_sub_cancel ..
  unfold timeInit tm
  simp only [cmos]
  rw [hbcd _ (by omega), hbcd _ (by omega), hbcd _ (by omega), hbcd _ hmday, hbcd _ (by omega), hbcd _ (by omega), hprev]

theorem seconds_lt_max (d : Date) : d.seconds < 2 ^ 32 := by
  have hle := d.year_le
  have hwithin := d.within_year
  have hsecond := d.secondOfDay_lt
  have hpos := d.mday_pos
  have hyears := sum_yearLength (show d.year - 1970 ≤ 100 by omega)
  rw [yearLength_eq] at hwithin
  unfold seconds days
  split at hwithin
  · omega
  · omega

theorem last_before (d : Date) : last.Before d ↔ 2 ^ 31 ≤ d.seconds := by
  have hlast : last.seconds = 2 ^ 31 - 1 := rfl
  rw [before_iff, hlast]
  omega

theorem toInt_seconds (d : Date) :
    (Int32.ofNat d.seconds).toInt = if last.Before d then (d.seconds : Int) - (2 ^ 32 : Int) else d.seconds := by
  have hmax := d.seconds_lt_max
  have hlast := d.last_before
  have hsize : (Int32.size : Int) = 4294967296 := rfl
  rw [Int32.toInt_ofNat', Int.bmod_eq_emod, hsize]
  split
  · next hhalf =>
    rw [if_pos (hlast.mpr (by omega)), hsize]
    omega
  · next hhalf =>
    rw [if_neg (fun hover => hhalf (by have := hlast.mp hover; omega))]
    omega

end Date

/-- `kernel_mktime` counts the seconds exactly up to January 19, 2038, 03:14:07, and its results are in the
order of the dates unless the two dates are on different sides of the end of that second. -/
theorem kernel_mktime_exact (d e : Date) : ∃ r r', kernelMktime (timeInit d.cmos) = some r ∧
    kernelMktime (timeInit e.cmos) = some r' ∧ (r.toInt = d.seconds ↔ ¬ Date.last.Before d) ∧
      (d.Before e ∧ ¬ r < r' ↔ ¬ Date.last.Before d ∧ Date.last.Before e) := by
  have hd := d.toInt_seconds
  have he := e.toInt_seconds
  have hmaxd := d.seconds_lt_max
  have hmaxe := e.seconds_lt_max
  rw [d.timeInit_cmos, e.timeInit_cmos]
  refine ⟨_, _, d.kernelMktime_tm, e.kernelMktime_tm, ?_, ?_⟩
  · rw [hd]
    split
    · next hover => exact ⟨fun h => by omega, fun h => absurd hover h⟩
    · next hin => exact ⟨fun _ => hin, fun _ => rfl⟩
  · rw [Int32.lt_iff_toInt_lt, hd, he, Date.before_iff]
    have hlastd := d.last_before
    have hlaste := e.last_before
    grind

/-- The second after the last one. -/
theorem kernel_mktime_2038 : let d : Date := { year := 2038, mon := 0, mday := 19, hour := 3, min := 14, sec := 8 }
    kernelMktime d.tm = some (-2147483648) ∧ d.seconds = 2147483648 := by
  decide +kernel

end Linux011.Kernel
