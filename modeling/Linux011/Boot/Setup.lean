import Mathlib.Logic.Function.Basic
import Linux011.Boot.Bootsect

/-!
# boot/setup.s

The loop at `do_move`, which moves the system down to the start of memory, 64 kB at a time.
-/

namespace Linux011.Boot

/-- `rep movsw`, with the direction flag clear. -/
def movsw (ds es : BitVec 16) : (cx : Nat) → (si di : BitVec 16) → Memory → Memory
  | 0, _, _, mem => mem
  | cx + 1, si, di, mem =>
    let low := mem (physical ds si)
    let high := mem (physical ds si + 1)
    movsw ds es cx (si + 2) (di + 2)
      (Function.update (Function.update mem (physical es di) low) (physical es di + 1) high)

/-- `do_move`, with `ax`. -/
def doMove : (fuel : Nat) → (ax : BitVec 16) → Memory → Option Memory
  | 0, _, _ => none
  | fuel + 1, ax, mem =>
    let es := ax
    let ax := ax + 0x1000
    if ax = 0x9000 then some mem else doMove fuel ax (movsw ax es 0x8000 0 0 mem)

variable {mem : Memory}

/-- `n` words from word `i` of a segment on are copied to the segment below. -/
theorem movsw_spec (ds es : BitVec 16) (hsegs : ds.toNat = es.toNat + 0x1000) (n : Nat) :
    ∀ (i : Nat) (mem : Memory), i + n ≤ 0x8000 → ∀ p,
      movsw ds es n (BitVec.ofNat 16 (2 * i)) (BitVec.ofNat 16 (2 * i)) mem p =
        if 16 * es.toNat + 2 * i ≤ p ∧ p < 16 * es.toNat + 2 * (i + n) then mem (p + 0x10000) else mem p := by
  induction n with
  | zero =>
    intro i mem _ p
    rw [if_neg (by omega)]
    rfl
  | succ n ih =>
    intro i mem hn p
    have hoff : (BitVec.ofNat 16 (2 * i)).toNat = 2 * i := by
      rw [BitVec.toNat_ofNat]
      omega
    have hnext : BitVec.ofNat 16 (2 * i) + 2 = BitVec.ofNat 16 (2 * (i + 1)) := by
      apply BitVec.eq_of_toNat_eq
      rw [BitVec.toNat_add, hoff, BitVec.toNat_ofNat]
      rfl
    unfold movsw
    simp only
    rw [hnext, ih (i + 1) _ (by omega) p]
    have hsource : physical ds (BitVec.ofNat 16 (2 * i)) = 16 * es.toNat + 0x10000 + 2 * i := by
      unfold physical
      omega
    have hdest : physical es (BitVec.ofNat 16 (2 * i)) = 16 * es.toNat + 2 * i := by
      unfold physical
      omega
    rw [hsource, hdest]
    simp only [Function.update_apply]
    by_cases hlow : p = 16 * es.toNat + 2 * i
    · rw [if_neg (by omega), if_neg (by omega), if_pos hlow, if_pos (by omega), hlow]
      refine congrArg mem ?_
      omega
    · by_cases hhigh : p = 16 * es.toNat + 2 * i + 1
      · rw [if_neg (by omega), if_pos hhigh, if_pos (by omega), hhigh]
        refine congrArg mem ?_
        omega
      · by_cases hin : 16 * es.toNat + 2 * (i + 1) ≤ p ∧ p < 16 * es.toNat + 2 * (i + 1 + n)
        · -- the source lies beyond the segment that is written
          have hbeyond : p + 0x10000 ≠ 16 * es.toNat + 2 * i ∧ p + 0x10000 ≠ 16 * es.toNat + 2 * i + 1 := by omega
          rw [if_pos hin, if_neg hbeyond.2, if_neg hbeyond.1, if_pos (by omega)]
        · rw [if_neg hin, if_neg hhigh, if_neg hlow, if_neg (by omega)]

/-- From segment `j` on. -/
theorem doMove_spec {j : Nat} (hj : j ≤ 8) : ∀ (fuel : Nat) (mem : Memory), 8 - j < fuel →
    ∃ mem', doMove fuel (BitVec.ofNat 16 (0x1000 * j)) mem = some mem' ∧
      ∀ p, mem' p = if 0x10000 * j ≤ p ∧ p < 0x80000 then mem (p + 0x10000) else mem p := by
  induction hn : 8 - j generalizing j with
  | zero =>
    intro fuel mem hfuel
    obtain rfl : j = 8 := by omega
    obtain ⟨fuel, rfl⟩ := Nat.exists_eq_add_of_lt hfuel
    refine ⟨mem, rfl, fun p => ?_⟩
    rw [if_neg (by omega)]
  | succ n ih =>
    intro fuel mem hfuel
    obtain ⟨fuel, rfl⟩ : ∃ m, fuel = m + 1 := ⟨fuel - 1, by omega⟩
    have hes : (BitVec.ofNat 16 (0x1000 * j)).toNat = 0x1000 * j := by
      rw [BitVec.toNat_ofNat]
      omega
    have hax : BitVec.ofNat 16 (0x1000 * j) + 0x1000 = BitVec.ofNat 16 (0x1000 * (j + 1)) := by
      apply BitVec.eq_of_toNat_eq
      rw [BitVec.toNat_add, hes, BitVec.toNat_ofNat]
      rfl
    have hds : (BitVec.ofNat 16 (0x1000 * (j + 1))).toNat = 0x1000 * (j + 1) := by
      rw [BitVec.toNat_ofNat]
      omega
    have hmore : BitVec.ofNat 16 (0x1000 * (j + 1)) ≠ 0x9000 := by
      intro heq
      rw [heq] at hds
      change 0x9000 = _ at hds
      omega
    have hcopy := movsw_spec (BitVec.ofNat 16 (0x1000 * (j + 1))) (BitVec.ofNat 16 (0x1000 * j)) (by omega)
      0x8000 0 mem (by decide)
    obtain ⟨mem', hmove, hspec⟩ := ih (j := j + 1) (by omega) (by omega) fuel _ (by omega)
    refine ⟨mem', ?_, fun p => ?_⟩
    · unfold doMove
      simp only
      rw [hax, if_neg hmore]
      exact hmove
    · have hcopy : ∀ p, movsw _ _ 0x8000 0 0 mem p = _ := hcopy
      rw [hspec p, hcopy p, hcopy (p + 0x10000), hes]
      by_cases hlater : 0x10000 * (j + 1) ≤ p ∧ p < 0x80000
      · rw [if_pos hlater, if_neg (by omega), if_pos (by omega)]
      · rw [if_neg hlater]
        by_cases hnow : 0x10000 * j ≤ p ∧ p < 0x10000 * (j + 1)
        · rw [if_pos (by omega), if_pos (by omega)]
        · rw [if_neg (by omega), if_neg (by omega)]

/-- `do_move` moves everything between 64 kB and 576 kB down to address 0. -/
theorem doMove_start (mem : Memory) : ∃ mem', (∀ fuel, 9 ≤ fuel → doMove fuel 0 mem = some mem') ∧
    ∀ p, mem' p = if p < 0x80000 then mem (p + 0x10000) else mem p := by
  refine ⟨fun p => if p < 0x80000 then mem (p + 0x10000) else mem p, fun fuel hfuel => ?_, fun p => rfl⟩
  obtain ⟨mem', hmove, hspec⟩ := doMove_spec (Nat.zero_le 8) fuel mem (by omega)
  refine hmove.trans (congrArg some (funext fun p => ?_))
  rw [hspec p]
  simp only [Nat.mul_zero, Nat.zero_le, true_and]

/-- The system gets from the floppy to the start of memory: each of its reads lies in one track and in 64 kB of
memory, `read_it` comes to its end, and if its memory is left alone until `do_move`, byte `p` of the system is at
address `p` after it. -/
theorem system_in_place {image : Nat → UInt8} {sectors : BitVec 16} {mem : Memory} (hlow : 5 < sectors.toNat)
    (hhigh : sectors.toNat < 64) :
    (∀ s, Relation.ReflTransGen (Loader.Turn image sectors) (Loader.start mem) s → s.es < endSeg →
      (s.request (s.amount sectors)).Good sectors.toNat) ∧
    Lib.Inevitable (Loader.Turn image sectors)
      (fun s => ¬ s.es < endSeg ∧
        ∀ mem₁ : Memory, (∀ p, 0x10000 ≤ p → p < 0x10000 + 16 * sysSize.toNat → mem₁ p = s.mem p) →
          ∃ mem', (∀ fuel, 9 ≤ fuel → doMove fuel 0 mem₁ = some mem') ∧
            ∀ p < 16 * sysSize.toNat, mem' p = image (512 * (1 + setupLen) + p))
      (Loader.start mem) := by
  refine ⟨fun s hrun _ => Loader.request_good hlow hhigh hrun, (Loader.read_it_loads hlow hhigh).mono ?_⟩
  rintro s ⟨hend, hsystem⟩
  refine ⟨hend, fun mem₁ hsame => ?_⟩
  obtain ⟨mem', hmove, hspec⟩ := doMove_start mem₁
  refine ⟨mem', hmove, fun p hp => ?_⟩
  have hsize : 16 * sysSize.toNat = 0x30000 := rfl
  rw [hspec p, if_pos (by omega), hsame _ (by omega) (by omega), hsystem, if_pos (by omega), Nat.add_sub_cancel]

/-- A disk with 18 sectors in a track. -/
theorem system_in_place_18 :
    (∀ s, Relation.ReflTransGen (Loader.Turn UInt8.ofNat 18) (Loader.start fun _ => 0) s → s.es < endSeg →
      (s.request (s.amount 18)).Good 18) ∧
    Lib.Inevitable (Loader.Turn UInt8.ofNat 18)
      (fun s => ¬ s.es < endSeg ∧
        ∀ mem₁ : Memory, (∀ p, 0x10000 ≤ p → p < 0x10000 + 16 * sysSize.toNat → mem₁ p = s.mem p) →
          ∃ mem', (∀ fuel, 9 ≤ fuel → doMove fuel 0 mem₁ = some mem') ∧
            ∀ p < 16 * sysSize.toNat, mem' p = UInt8.ofNat (512 * (1 + setupLen) + p))
      (Loader.start fun _ => 0) :=
  system_in_place (by decide) (by decide)

end Linux011.Boot
