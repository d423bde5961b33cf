import Linux011.Mm.Access
import Linux011.Mm.Counting

/-!
# boot/head.s

`setup_paging`, which fills the page directory and four page tables. Memory is an array of 32-bit words; the
word at address `4 * w` is word `w`.
-/

namespace Linux011.Boot

abbrev Words := Nat → BitVec 32

def pgDir : BitVec 32 := 0
def pg0 : BitVec 32 := 0x1000
def pg1 : BitVec 32 := 0x2000
def pg2 : BitVec 32 := 0x3000
def pg3 : BitVec 32 := 0x4000

namespace Words

def store (address value : BitVec 32) (mem : Words) : Words := Function.update mem (address.toNat / 4) value

/-- `rep stosl`, with the direction flag clear. -/
def repStosl : (ecx : Nat) → (edi eax : BitVec 32) → Words → Words
  | 0, _, _, mem => mem
  | ecx + 1, edi, eax, mem => repStosl ecx (edi + 4) eax (mem.store edi eax)

/-- The loop of `setup_paging`. The tables are filled backwards, until `subl` gives a negative number. -/
def fill : (fuel : Nat) → (edi eax : BitVec 32) → Words → Option Words
  | 0, _, _, _ => none
  | fuel + 1, edi, eax, mem =>
    let mem := mem.store edi eax
    if 0x1000 ≤ eax.toInt then fill fuel (edi - 4) (eax - 0x1000) mem else some mem

def setupPaging (fuel : Nat) (mem : Words) : Option Words :=
  let mem := mem.repStosl (1024 * 5) 0 0
  let mem := mem.store pgDir (pg0 + 7)
  let mem := mem.store (pgDir + 4) (pg1 + 7)
  let mem := mem.store (pgDir + 8) (pg2 + 7)
  let mem := mem.store (pgDir + 12) (pg3 + 7)
  mem.fill fuel (pg3 + 4092) 0xfff007

end Words

/-- The bits of an entry that the paging code reads. -/
def entryOf (word : BitVec 32) : Mm.Pte where
  frame := word.toNat / 4096
  present := word.getLsbD 0
  rw := word.getLsbD 1
  dirty := word.getLsbD 6

namespace Words

variable {mem : Words}

theorem store_apply {address value : BitVec 32} (w : Nat) :
    mem.store address value w = if w = address.toNat / 4 then value else mem w :=
  Function.update_apply mem _ value w

theorem repStosl_spec (value : BitVec 32) (n : Nat) : ∀ (i : Nat) (mem : Words), i + n ≤ 2 ^ 20 → ∀ w,
    mem.repStosl n (BitVec.ofNat 32 (4 * i)) value w = if i ≤ w ∧ w < i + n then value else mem w := by
  induction n with
  | zero =>
    intro i mem _ w
    rw [if_neg (by omega)]
    rfl
  | succ n ih =>
    intro i mem hn w
    have hplace : (BitVec.ofNat 32 (4 * i)).toNat = 4 * i := by
      rw [BitVec.toNat_ofNat]
      omega
    have hnext : BitVec.ofNat 32 (4 * i) + 4 = BitVec.ofNat 32 (4 * (i + 1)) := by
      apply BitVec.eq_of_toNat_eq
      rw [BitVec.toNat_add, hplace, BitVec.toNat_ofNat]
      rfl
    unfold repStosl
    rw [hnext, ih (i + 1) _ (by omega) w, store_apply, hplace]
    by_cases hfirst : w = 4 * i / 4
    · rw [if_neg (by omega), if_pos hfirst, if_pos (by omega)]
    · rw [if_neg hfirst]
      by_cases hin : i + 1 ≤ w ∧ w < i + 1 + n
      · rw [if_pos hin, if_pos (by omega)]
      · rw [if_neg hin, if_neg (by omega)]

/-- The entry for page `n`, with the bits of `setup_paging`. -/
def identity (n : Nat) : BitVec 32 := BitVec.ofNat 32 (0x1000 * n + 7)

/-- The loop, with the entries from number `i` of the tables on done. -/
theorem fill_spec (i : Nat) : ∀ (fuel : Nat) (mem : Words), i < 4096 → i < fuel →
    ∃ mem', mem.fill fuel (BitVec.ofNat 32 (0x1000 + 4 * i)) (identity i) = some mem' ∧
      ∀ w, mem' w = if 1024 ≤ w ∧ w ≤ 1024 + i then identity (w - 1024) else mem w := by
  induction i with
  | zero =>
    intro fuel mem _ hfuel
    obtain ⟨fuel, rfl⟩ : ∃ m, fuel = m + 1 := ⟨fuel - 1, by omega⟩
    refine ⟨mem.store (BitVec.ofNat 32 0x1000) (identity 0), rfl, fun w => ?_⟩
    rw [store_apply]
    have hplace : (BitVec.ofNat 32 0x1000).toNat / 4 = 1024 := rfl
    by_cases hw : w = 1024
    · subst hw
      rfl
    · rw [hplace, if_neg hw, if_neg (by omega)]
  | succ i ih =>
    intro fuel mem hi hfuel
    obtain ⟨fuel, rfl⟩ : ∃ m, fuel = m + 1 := ⟨fuel - 1, by omega⟩
    have hplace : (BitVec.ofNat 32 (0x1000 + 4 * (i + 1))).toNat = 0x1000 + 4 * (i + 1) := by
      rw [BitVec.toNat_ofNat]
      omega
    have hvalue : (identity (i + 1)).toNat = 0x1000 * (i + 1) + 7 := by
      unfold identity
      rw [BitVec.toNat_ofNat]
      omega
    have hedi : BitVec.ofNat 32 (0x1000 + 4 * (i + 1)) - 4 = BitVec.ofNat 32 (0x1000 + 4 * i) := by
      apply BitVec.eq_of_toNat_eq
      rw [BitVec.toNat_sub, hplace, BitVec.toNat_ofNat]
      show (2 ^ 32 - 4 + (0x1000 + 4 * (i + 1))) % 2 ^ 32 = _
      omega
    have heax : identity (i + 1) - 0x1000 = identity i := by
      apply BitVec.eq_of_toNat_eq
      rw [BitVec.toNat_sub, hvalue, identity, BitVec.toNat_ofNat]
      show (2 ^ 32 - 0x1000 + (0x1000 * (i + 1) + 7)) % 2 ^ 32 = _
      omega
    have hmore : 0x1000 ≤ (identity (i + 1)).toInt := by
      rw [BitVec.toInt_eq_toNat_of_lt (by omega), hvalue]
      omega
    obtain ⟨mem', hfill, hspec⟩ :=
      ih fuel (mem.store (BitVec.ofNat 32 (0x1000 + 4 * (i + 1))) (identity (i + 1))) (by omega) (by omega)
    refine ⟨mem', ?_, fun w => ?_⟩
    · unfold fill
      simp only
      rw [if_pos hmore, hedi, heax]
      exact hfill
    · rw [hspec w, store_apply, hplace]
      by_cases hin : 1024 ≤ w ∧ w ≤ 1024 + i
      · rw [if_pos hin, if_pos (by omega)]
      · rw [if_neg hin]
        by_cases hw : w = (0x1000 + 4 * (i + 1)) / 4
        · rw [if_pos hw, if_pos (by omega)]
          refine congrArg identity ?_
          omega
        · rw [if_neg hw, if_neg (by omega)]

/-- The words that `setup_paging` leaves. -/
def pagingWords (mem : Words) (w : Nat) : BitVec 32 :=
  if w < 4 then identity (w + 1) else if w < 1024 then 0 else if w < 5120 then identity (w - 1024) else mem w

theorem setupPaging_spec (mem : Words) {fuel : Nat} (hfuel : 4096 ≤ fuel) :
    mem.setupPaging fuel = some (pagingWords mem) := by
  have hclear : ∀ w, mem.repStosl (1024 * 5) 0 0 w = if 0 ≤ w ∧ w < 0 + 1024 * 5 then 0 else mem w :=
    repStosl_spec 0 (1024 * 5) 0 mem (by decide)
  obtain ⟨mem', hfill, hspec⟩ := fill_spec 4095 fuel
    (((((mem.repStosl (1024 * 5) 0 0).store pgDir (pg0 + 7)).store (pgDir + 4) (pg1 + 7)).store (pgDir + 8)
      (pg2 + 7)).store (pgDir + 12) (pg3 + 7)) (by decide) (by omega)
  refine hfill.trans (congrArg some (funext fun w => ?_))
  have hplaces : pgDir.toNat / 4 = 0 ∧ (pgDir + 4).toNat / 4 = 1 ∧ (pgDir + 8).toNat / 4 = 2 ∧
      (pgDir + 12).toNat / 4 = 3 := by decide
  rw [hspec w]
  unfold pagingWords
  simp only [store_apply, hclear, hplaces]
  by_cases hdir : w < 4
  · rw [if_neg (by omega), if_pos hdir]
    obtain rfl | rfl | rfl | rfl : w = 0 ∨ w = 1 ∨ w = 2 ∨ w = 3 := by omega
    · rfl
    · rfl
    · rfl
    · rfl
  · rw [if_neg hdir]
    by_cases htable : 1024 ≤ w ∧ w < 5120
    · rw [if_pos (by omega), if_neg (by omega), if_pos htable.2]
    · rw [if_neg (by omega), if_neg (by omega), if_neg (by omega), if_neg (by omega), if_neg (by omega)]
      by_cases hrest : w < 1024
      · rw [if_pos (by omega), if_pos hrest]
      · rw [if_neg (by omega), if_neg hrest, if_neg (by omega)]

/-! ## The paging code starts here -/

theorem entryOf_zero : entryOf 0 = Mm.Pte.zero := by decide

theorem entryOf_identity {n : Nat} (hn : n < 2 ^ 20) : entryOf (identity n) = Mm.Pte.user n := by
  have hvalue : (identity n).toNat = 0x1000 * n + 7 := by
    unfold identity
    rw [BitVec.toNat_ofNat]
    omega
  have hbit : ∀ i < 12, (identity n).getLsbD i = Nat.testBit 7 i := by
    intro i hi
    rw [BitVec.getLsbD, hvalue]
    exact (Nat.testBit_two_pow_mul_add n (by decide) i).trans (if_pos hi)
  unfold entryOf
  rw [hvalue, hbit 0 (by decide), hbit 1 (by decide), hbit 6 (by decide), show (0x1000 * n + 7) / 4096 = n by omega]
  rfl

/-- In the state that `setup_paging` leaves an address below 16 MB stands for itself, and no other address for
anything. It is the state in which the paging code starts. -/
theorem setupPaging_boot (mem : Words) {fuel lo hi : Nat} {page : Nat → Nat → UInt8} (hfuel : 4096 ≤ fuel) :
    ∃ mem', mem.setupPaging fuel = some mem' ∧
      (∀ d < 1024, entryOf (mem' d) = (Mm.boot lo hi page).mem.pgDir d) ∧
      (∀ t, 1 ≤ t → t ≤ 4 → ∀ i < 1024, entryOf (mem' (1024 * t + i)) = (Mm.boot lo hi page).mem.pageTable t i) ∧
      (∀ w, 5120 ≤ w → mem' w = mem w) ∧
      ∀ a < 2 ^ 32, Mm.walk (Mm.boot lo hi page).mem a =
        if a < 0x1000000 then Mm.Pte.user (a / 4096) else Mm.Pte.zero := by
  have hdir : ∀ d, (Mm.boot lo hi page).mem.pgDir d = if d < 4 then Mm.Pte.user (d + 1) else Mm.Pte.zero :=
    fun d => rfl
  have htable : ∀ t i, (Mm.boot lo hi page).mem.pageTable t i =
      if 1 ≤ t ∧ t ≤ 4 then Mm.Pte.user ((t - 1) * 1024 + i) else Mm.Pte.zero := fun t i => rfl
  refine ⟨pagingWords mem, setupPaging_spec mem hfuel, fun d hd => ?_, fun t ht ht4 i hlt => ?_, fun w hw => ?_,
    fun a ha => ?_⟩
  · rw [hdir]
    unfold pagingWords
    split
    · exact entryOf_identity (by omega)
    · exact entryOf_zero
  · rw [htable, if_pos ⟨ht, ht4⟩]
    unfold pagingWords
    rw [if_neg (by omega), if_neg (by omega), if_pos (by omega), entryOf_identity (by omega)]
    refine congrArg Mm.Pte.user ?_
    omega
  · unfold pagingWords
    rw [if_neg (by omega), if_neg (by omega), if_neg (by omega)]
  · unfold Mm.walk Mm.dirIndex
    rw [hdir]
    by_cases hlow : a < 0x1000000
    · have hfour : a / 0x400000 % 1024 < 4 := by omega
      rw [if_pos hlow, if_pos hfour]
      show (if true then (Mm.boot lo hi page).mem.pageTable (a / 0x400000 % 1024 + 1) (Mm.tableIndex a) else _) = _
      unfold Mm.tableIndex
      rw [if_pos rfl, htable, if_pos (by omega)]
      refine congrArg Mm.Pte.user ?_
      omega
    · have hfar : ¬ a / 0x400000 % 1024 < 4 := by omega
      rw [if_neg hlow, if_neg hfar]
      rfl

/-- On a machine with 16 MB. -/
theorem setupPaging_boot_16 : ∃ mem', setupPaging 4096 (fun _ => 1) = some mem' ∧
    (∀ d < 1024, entryOf (mem' d) = (Mm.boot 1024 4096 fun _ _ => 0).mem.pgDir d) ∧
    (∀ t, 1 ≤ t → t ≤ 4 → ∀ i < 1024,
      entryOf (mem' (1024 * t + i)) = (Mm.boot 1024 4096 fun _ _ => 0).mem.pageTable t i) ∧
    (∀ w, 5120 ≤ w → mem' w = 1) ∧
    ∀ a < 2 ^ 32, Mm.walk (Mm.boot 1024 4096 fun _ _ => 0).mem a =
      if a < 0x1000000 then Mm.Pte.user (a / 4096) else Mm.Pte.zero :=
  setupPaging_boot _ le_rfl

end Words

end Linux011.Boot
