import Mathlib.Data.List.GetD
import Mathlib.Data.List.Induction
import Mathlib.Data.Nat.Find
import Mathlib.Logic.Function.Basic

/-!
# kernel/who.c

`sys_iam` and `sys_whoami` share the array `msg`. An access outside of it ends a call with `none`.

`sys_iam` stores the character that ended the name behind the name. If that was a newline, `sys_whoami` does
not find the end there.
-/

namespace Linux011.Kernel

namespace Who

/-- The length of `msg`. -/
def msgSize : Nat := 24

/-- `EINVAL` -/
def eInval : Int := 22

abbrev Msg := Nat → UInt8

def newline : UInt8 := 10

/-- The first loop of `sys_iam`, with `left` rounds to go. -/
def readName (name : Nat → UInt8) : (left len : Nat) → Nat
  | 0, len => len
  | left + 1, len => if name len = 0 ∨ name len = newline then len else readName name left (len + 1)

/-- The second loop of `sys_iam`; `tmp` is what was read. -/
def storeName (tmp : Nat → UInt8) : (left i : Nat) → Msg → Option Msg
  | 0, _, msg => some msg
  | left + 1, i, msg =>
    if i < msgSize then storeName tmp left (i + 1) (Function.update msg i (tmp i)) else none

def sysIam (name : Nat → UInt8) (msg : Msg) : Option (Int × Msg) :=
  let len := readName name 30 0
  if len ≥ 24 then some (-eInval, msg)
  else (storeName name (len + 1) 0 msg).map fun msg => (len, msg)

/-- The first loop of `sys_whoami`. -/
def findEnd (msg : Msg) : (left len : Nat) → Option Nat
  | 0, _ => none
  | left + 1, len => if msg len ≠ 0 then findEnd msg left (len + 1) else some len

/-- The second loop of `sys_whoami`, with what it has stored. -/
def copyName (msg : Msg) : (left i : Nat) → List UInt8 → Option (Int × List UInt8)
  | 0, i, out => some (i, out)
  | left + 1, i, out =>
    if i < msgSize then
      if msg i = 0 then some (i, out ++ [msg i]) else copyName msg left (i + 1) (out ++ [msg i])
    else none

/-- `sys_whoami`: the result, and the bytes from `name` on. -/
def sysWhoami (size : Nat) (msg : Msg) : Option (Int × List UInt8) := do
  let len ← findEnd msg msgSize 0
  if len > size then return (-eInval, [])
  else copyName msg size 0 []

/-! ## Strings of the user -/

/-- A name in user memory, and what ends it. -/
structure UserString where
  text : List UInt8
  newline : Bool
  behind : Nat → UInt8
  clean : ∀ c ∈ text, c ≠ 0 ∧ c ≠ Who.newline

namespace UserString

def terminator (s : UserString) : UInt8 := if s.newline then Who.newline else 0

def bytes (s : UserString) (i : Nat) : UInt8 :=
  if i = s.text.length then s.terminator else s.text.getD i (s.behind i)

def accepted (s : UserString) : Bool := s.text.length < 24

def empty : UserString := ⟨[], false, fun _ => 0, fun _ h => nomatch h⟩

end UserString

/-- The calls of `sys_iam`, from the zeroed `msg` on. -/
def run (calls : List UserString) : Option Msg :=
  calls.foldlM (fun msg s => (sysIam s.bytes msg).map Prod.snd) fun _ => 0

/-- The last name that was accepted; without one it is the empty name. -/
def lastName (calls : List UserString) : UserString :=
  ((calls.filter (·.accepted)).getLast?).getD .empty

/-! ## The loops -/

variable {s : UserString} {msg : Msg}

namespace UserString

theorem bytes_text {i : Nat} (h : i < s.text.length) : s.bytes i = s.text[i] := by
  unfold bytes
  rw [if_neg (Nat.ne_of_lt h), List.getD_eq_getElem _ _ h]

theorem bytes_end (s : UserString) : s.bytes s.text.length = s.terminator := if_pos rfl

/-- Only the terminator ends the name. -/
theorem bytes_clean {i : Nat} (h : i < s.text.length) : s.bytes i ≠ 0 ∧ s.bytes i ≠ Who.newline := by
  rw [bytes_text h]
  exact s.clean _ (List.getElem_mem h)

/-- Every memory in which a character ends the name is that of a string. -/
theorem exists_bytes {mem : Nat → UInt8} (h : ∃ k, mem k = 0 ∨ mem k = Who.newline) : ∃ s : UserString, s.bytes = mem := by
  classical
  have hfirst := Nat.find_spec h
  have hmin := fun i => Nat.find_min h (m := i)
  generalize Nat.find h = k at hfirst hmin
  refine ⟨⟨(List.range k).map mem, mem k = Who.newline, mem, ?_⟩, ?_⟩
  · intro c hc
    obtain ⟨i, hi, rfl⟩ := List.mem_map.mp hc
    exact not_or.mp (hmin i (List.mem_range.mp hi))
  · funext i
    unfold bytes terminator
    simp only [List.length_map, List.length_range, decide_eq_true_eq]
    split
    · next heq =>
      rw [heq]
      split
      · next hnl => exact hnl.symm
      · next hnl => exact (hfirst.resolve_right hnl).symm
    · rw [List.getD_eq_getElem?_getD, List.getElem?_map]
      cases hget : (List.range k)[i]? with
      | none => rfl
      | some j =>
        rw [List.getElem?_eq_some_iff] at hget
        obtain ⟨hlt, rfl⟩ := hget
        simp

end UserString

/-- The loop stops at the end of the name, or after 30 characters. -/
theorem readName_bytes (s : UserString) {left len : Nat} (h : len ≤ s.text.length) :
    readName s.bytes left len = min (len + left) s.text.length := by
  induction left generalizing len with
  | zero =>
    unfold readName
    omega
  | succ left ih =>
    unfold readName
    rcases Nat.eq_or_lt_of_le h with heq | hlt
    · have hend : s.bytes len = 0 ∨ s.bytes len = newline := by
        rw [heq, s.bytes_end]
        unfold UserString.terminator
        split
        · exact .inr rfl
        · exact .inl rfl
      rw [if_pos hend]
      omega
    · rw [if_neg (not_or.mpr (UserString.bytes_clean hlt)), ih hlt]
      omega

theorem storeName_eq (tmp : Nat → UInt8) {left i : Nat} (h : i + left ≤ msgSize) :
    storeName tmp left i msg = some fun k => if i ≤ k ∧ k < i + left then tmp k else msg k := by
  induction left generalizing i msg with
  | zero =>
    unfold storeName
    congr 1
    funext k
    rw [if_neg (by omega)]
  | succ left ih =>
    unfold storeName
    rw [if_pos (by omega), ih (by omega)]
    congr 1
    funext k
    rcases eq_or_ne k i with rfl | hne
    · rw [if_neg (by omega), if_pos (by omega), Function.update_self]
    · rw [Function.update_of_ne hne]
      by_cases hin : i + 1 ≤ k ∧ k < i + 1 + left
      · rw [if_pos hin, if_pos (by omega)]
      · rw [if_neg hin, if_neg (by omega)]

theorem findEnd_some {left len k : Nat} (hk : len ≤ k) (hleft : k < len + left) (hzero : msg k = 0)
    (hbefore : ∀ i, len ≤ i → i < k → msg i ≠ 0) : findEnd msg left len = some k := by
  induction left generalizing len with
  | zero => omega
  | succ left ih =>
    unfold findEnd
    rcases Nat.eq_or_lt_of_le hk with rfl | hlt
    · rw [if_neg (not_not.mpr hzero)]
    · rw [if_pos (hbefore len (Nat.le_refl _) hlt)]
      exact ih hlt (by omega) fun i hi => hbefore i (by omega)

/-- Up to the end of the name everything is copied. -/
theorem copyName_eq {left i k : Nat} {out : List UInt8} (hk : i ≤ k) (hleft : k < i + left) (hsize : k < msgSize)
    (hzero : msg k = 0) (hbefore : ∀ j, i ≤ j → j < k → msg j ≠ 0) :
    copyName msg left i out = some ((k : Int), out ++ (List.range' i (k - i)).map msg ++ [0]) := by
  induction left generalizing i out with
  | zero => omega
  | succ left ih =>
    unfold copyName
    rw [if_pos (by omega)]
    rcases Nat.eq_or_lt_of_le hk with rfl | hlt
    · rw [if_pos hzero, hzero, Nat.sub_self]
      simp
    · rw [if_neg (hbefore i (Nat.le_refl _) hlt), ih hlt (by omega) fun j hj => hbefore j (by omega),
        show k - i = k - (i + 1) + 1 by omega, List.range'_succ]
      simp

/-- What is stored begins with what was there, and goes on with the characters of `msg`. -/
theorem copyName_prefix {left i : Nat} {out : List UInt8} {r : Int × List UInt8} (h : copyName msg left i out = some r) :
    ∃ n, r.2 = out ++ (List.range' i n).map msg := by
  induction left generalizing i out with
  | zero =>
    cases h
    exact ⟨0, by simp⟩
  | succ left ih =>
    unfold copyName at h
    split at h
    · split at h
      · cases h
        exact ⟨1, by simp⟩
      · obtain ⟨n, hn⟩ := ih h
        exact ⟨n + 1, by rw [hn, List.range'_succ]; simp⟩
    · cases h

/-! ## Single calls -/

/-- `msg` has the name and its terminator. -/
def Holds (msg : Msg) (s : UserString) : Prop := ∀ i ≤ s.text.length, msg i = s.bytes i

theorem sysIam_rejected (h : s.accepted = false) (msg : Msg) : sysIam s.bytes msg = some (-eInval, msg) := by
  have hlong : ¬ s.text.length < 24 := of_decide_eq_false h
  unfold sysIam
  simp only
  rw [readName_bytes s (Nat.zero_le _), if_pos (by omega)]

theorem sysIam_accepted (h : s.accepted = true) (msg : Msg) :
    ∃ msg', sysIam s.bytes msg = some ((s.text.length : Int), msg') ∧ Holds msg' s := by
  have hshort : s.text.length < 24 := of_decide_eq_true h
  have hlen : min (0 + 30) s.text.length = s.text.length := by omega
  unfold sysIam
  simp only
  rw [readName_bytes s (Nat.zero_le _), hlen, if_neg (by omega),
    storeName_eq _ (show 0 + (s.text.length + 1) ≤ msgSize by unfold msgSize; omega)]
  exact ⟨_, rfl, fun i hi => if_pos (by omega)⟩

/-- A name with a NUL behind it is what `sys_whoami` gives. -/
theorem sysWhoami_nul (h : Holds msg s) (hshort : s.text.length < msgSize) (hnul : s.newline = false) {size : Nat}
    (hsize : s.text.length < size) : sysWhoami size msg = some ((s.text.length : Int), s.text ++ [0]) := by
  have hzero : msg s.text.length = 0 := by
    rw [h _ (Nat.le_refl _), s.bytes_end, UserString.terminator, hnul]
    rfl
  have hbefore : ∀ i, 0 ≤ i → i < s.text.length → msg i ≠ 0 := by
    intro i _ hi
    rw [h i (Nat.le_of_lt hi)]
    exact (UserString.bytes_clean hi).1
  have htext : (List.range' 0 s.text.length).map msg = s.text := by
    apply List.ext_getElem (by simp)
    intro i hi hi'
    rw [List.getElem_map, List.getElem_range', Nat.zero_add, Nat.one_mul, h i (Nat.le_of_lt hi'), UserString.bytes_text hi']
  unfold sysWhoami
  rw [findEnd_some (Nat.zero_le _) (by omega) hzero hbefore, Option.bind_eq_bind, Option.bind_some,
    if_neg (by omega), copyName_eq (Nat.zero_le _) (by omega) hshort hzero hbefore, Nat.sub_zero, htext]
  rfl

/-- A newline is taken for a part of the name. -/
theorem sysWhoami_newline (h : Holds msg s) (hnl : s.newline = true) (size : Nat) :
    sysWhoami size msg ≠ some ((s.text.length : Int), s.text ++ [0]) := by
  intro hr
  unfold sysWhoami at hr
  obtain ⟨len, -, hr⟩ := Option.bind_eq_some_iff.mp hr
  split at hr
  · cases hr
  · obtain ⟨n, hn⟩ := copyName_prefix hr
    have hlen := congrArg List.length hn
    have hlast := congrArg (·[s.text.length]?) hn
    have hmsg : msg s.text.length = newline := by
      rw [h _ (Nat.le_refl _), s.bytes_end, UserString.terminator, hnl]
      rfl
    simp only [List.length_append, List.length_map, List.length_range', List.length_nil, List.length_cons] at hlen
    obtain rfl : n = s.text.length + 1 := by omega
    have hget : (List.range' 0 (s.text.length + 1))[s.text.length]? = some s.text.length := by
      rw [List.getElem?_range' (by omega)]
      congr 1
      omega
    simp only [List.nil_append, List.getElem?_map, hget, Option.map_some, hmsg, List.getElem?_concat_length] at hlast
    exact absurd (Option.some.inj hlast) (by decide)

/-! ## Runs -/

theorem lastName_append (calls : List UserString) (s : UserString) :
    lastName (calls ++ [s]) = if s.accepted then s else lastName calls := by
  unfold lastName
  rw [List.filter_append]
  cases h : s.accepted with
  | true => simp [h]
  | false => simp [h]

theorem lastName_short (calls : List UserString) : (lastName calls).text.length < msgSize := by
  unfold lastName
  cases h : (calls.filter (·.accepted)).getLast? with
  | none => decide
  | some s =>
    have hs := (List.mem_filter.mp (List.mem_of_getLast? h)).2
    exact of_decide_eq_true hs

/-- After any calls `msg` has the last name that was accepted. -/
theorem run_holds (calls : List UserString) : ∃ msg, run calls = some msg ∧ Holds msg (lastName calls) := by
  induction calls using List.reverseRecOn with
  | nil =>
    refine ⟨_, rfl, fun i hi => ?_⟩
    rw [Nat.le_zero.mp hi]
    rfl
  | append_singleton calls s ih =>
    obtain ⟨msg, hrun, hholds⟩ := ih
    have hstep : run (calls ++ [s]) = (sysIam s.bytes msg).map Prod.snd := by
      unfold run at hrun ⊢
      rw [List.foldlM_append, hrun]
      simp
    rw [hstep, lastName_append]
    cases hs : s.accepted with
    | true =>
      obtain ⟨msg', hcall, hholds'⟩ := sysIam_accepted hs msg
      exact ⟨msg', by rw [hcall]; rfl, hholds'⟩
    | false => exact ⟨msg, by rw [sysIam_rejected hs]; rfl, hholds⟩

/-- No call of `sys_iam` leaves `msg`, and a rejected one leaves it as it is. A following `sys_whoami` gives
the last accepted name if and only if a NUL ended it. -/
theorem whoami_iff (calls : List UserString) (size : Nat) (h : (lastName calls).text.length < size) :
    ∃ msg, run calls = some msg ∧
      (∀ s : UserString, (s.accepted = true → ∃ msg', sysIam s.bytes msg = some ((s.text.length : Int), msg')) ∧
        (s.accepted = false → sysIam s.bytes msg = some (-eInval, msg))) ∧
      (sysWhoami size msg = some (((lastName calls).text.length : Int), (lastName calls).text ++ [0]) ↔
        (lastName calls).newline = false) := by
  obtain ⟨msg, hrun, hholds⟩ := run_holds calls
  refine ⟨msg, hrun, fun s => ⟨fun hs => ?_, fun hs => sysIam_rejected hs msg⟩, fun hr => ?_, fun hnul => ?_⟩
  · obtain ⟨msg', hcall, -⟩ := sysIam_accepted hs msg
    exact ⟨msg', hcall⟩
  · cases hnl : (lastName calls).newline with
    | false => rfl
    | true => exact absurd hr (sysWhoami_newline hholds hnl size)
  · exact sysWhoami_nul hholds (lastName_short calls) hnul h

/-- A long name, and then a short one. -/
theorem whoami_iff_short : ∃ msg,
    run [⟨[97, 98, 99], true, fun _ => 0, by simp [newline]⟩, ⟨[100], false, fun _ => 0, by simp [newline]⟩] = some msg ∧
    (sysWhoami 2 msg = some (1, [100, 0]) ↔ false = false) := by
  obtain ⟨msg, hrun, -, hiff⟩ := whoami_iff
    [⟨[97, 98, 99], true, fun _ => 0, by simp [newline]⟩, ⟨[100], false, fun _ => 0, by simp [newline]⟩] 2 (by decide)
  exact ⟨msg, hrun, hiff⟩

/-- A newline behind one character: the name comes back with the newline, and from a `msg` without a NUL it does
not come back at all. -/
theorem whoami_newline :
    ((run [⟨[97], true, fun _ => 0, by simp [newline]⟩]).bind (sysWhoami 10)) = some (2, [97, 10, 0]) ∧
      ((run [⟨List.replicate 23 97, true, fun _ => 0, by simp [newline]⟩]).bind (sysWhoami 30)) = none := by
  decide +kernel

end Who

end Linux011.Kernel
