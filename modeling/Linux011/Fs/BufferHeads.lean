import Mathlib.Logic.Function.Basic
import Linux011.Lib.Outcome

/-!
# Buffer heads

The table of buffer heads of `fs/buffer.c`. A buffer head is its index. `free_list` holds all of them, in the
order in which `getblk` looks for one to reuse. The hash queues are ways to find a buffer fast, and `find_buffer`
is written here as the search that they stand for.
-/

namespace Linux011.Fs

/-- `struct buffer_head`, without its links. -/
structure Head where
  bDev : Nat
  bBlocknr : Nat
  bCount : Nat
  bDirt : Bool
  bUptodate : Bool
  bLock : Bool
  bData : Nat → UInt8

structure Heads where
  nrBuffers : Nat
  head : Nat → Head
  freeList : List Nat

namespace Heads

def set (b : Nat) (h : Head) (H : Heads) : Heads := { H with head := Function.update H.head b h }

/-- `bh->b_dev == dev && bh->b_blocknr == block` -/
def Is (H : Heads) (b dev block : Nat) : Prop := (H.head b).bDev = dev ∧ (H.head b).bBlocknr = block

instance (H : Heads) (b dev block : Nat) : Decidable (H.Is b dev block) := inferInstanceAs (Decidable (_ ∧ _))

/-- `find_buffer` -/
def findBuffer (H : Heads) (dev block : Nat) : Option Nat :=
  (List.range H.nrBuffers).find? fun b => decide (H.Is b dev block)

/-- `BADNESS` -/
def badness (H : Heads) (b : Nat) : Nat := 2 * (H.head b).bDirt.toNat + (H.head b).bLock.toNat

/-- The search of `getblk` through the free list, which has come to `bh` so far. -/
def choose (H : Heads) : List Nat → Option Nat → Option Nat
  | [], bh => bh
  | tmp :: rest, bh =>
    if (H.head tmp).bCount ≠ 0 then H.choose rest bh
    else if bh.all fun b => decide (H.badness tmp < H.badness b) then
      if H.badness tmp = 0 then some tmp else H.choose rest (some tmp)
    else H.choose rest bh

/-- The end of `getblk`: a buffer gets another block, and goes to the end of the free list. -/
def reassign (b dev block : Nat) (H : Heads) : Heads :=
  { H.set b { H.head b with bDev := dev, bBlocknr := block, bCount := 1, bDirt := false, bUptodate := false } with
    freeList := H.freeList.erase b ++ [b] }

variable {H : Heads} {b dev block : Nat}

@[simp] theorem head_set (h : Head) (b' : Nat) : (H.set b h).head b' = if b' = b then h else H.head b' := by
  by_cases hb : b' = b
  · rw [hb, if_pos rfl]
    exact Function.update_self ..
  · rw [if_neg hb]
    exact Function.update_of_ne hb ..

theorem head_reassign (b' : Nat) : (H.reassign b dev block).head b' =
    if b' = b then { H.head b with bDev := dev, bBlocknr := block, bCount := 1, bDirt := false, bUptodate := false }
    else H.head b' := head_set ..

/-- The buffers have different blocks. Device 0 stands for no block. -/
def Distinct (H : Heads) : Prop :=
  ∀ a b, a < H.nrBuffers → b < H.nrBuffers → ∀ dev block, dev ≠ 0 → H.Is a dev block → H.Is b dev block → a = b

theorem findBuffer_some (h : H.findBuffer dev block = some b) : b < H.nrBuffers ∧ H.Is b dev block :=
  ⟨List.mem_range.mp (List.mem_of_find?_eq_some h), of_decide_eq_true (List.find?_some h :)⟩

theorem findBuffer_none (h : H.findBuffer dev block = none) {b : Nat} (hb : b < H.nrBuffers) : ¬ H.Is b dev block := by
  have hnot := List.find?_eq_none.mp h b (List.mem_range.mpr hb)
  rwa [decide_eq_true_eq] at hnot

theorem findBuffer_is (hdistinct : H.Distinct) (hdev : dev ≠ 0) (hb : b < H.nrBuffers) (his : H.Is b dev block) :
    H.findBuffer dev block = some b := by
  cases h : H.findBuffer dev block with
  | none => exact absurd his (findBuffer_none h hb)
  | some a =>
    obtain ⟨ha, ha'⟩ := findBuffer_some h
    rw [hdistinct a b ha hb dev block hdev ha' his]

/-- The choice is an unused buffer of the free list. -/
theorem choose_some {rest : List Nat} {bh : Option Nat} (h : H.choose rest bh = some b) :
    bh = some b ∨ b ∈ rest ∧ (H.head b).bCount = 0 := by
  induction rest generalizing bh with
  | nil => exact Or.inl h
  | cons tmp rest ih =>
    unfold choose at h
    split at h
    · exact (ih h).imp_right fun hr => ⟨List.mem_cons_of_mem tmp hr.1, hr.2⟩
    · next hcount =>
      have hfree := not_not.mp hcount
      split at h
      · split at h
        · cases h
          exact Or.inr ⟨List.mem_cons_self, hfree⟩
        · rcases ih h with heq | hr
          · cases heq
            exact Or.inr ⟨List.mem_cons_self, hfree⟩
          · exact Or.inr ⟨List.mem_cons_of_mem tmp hr.1, hr.2⟩
      · exact (ih h).imp_right fun hr => ⟨List.mem_cons_of_mem tmp hr.1, hr.2⟩

/-- A buffer that is not used and not bad is taken at once. -/
theorem choose_good {rest : List Nat} {bh : Option Nat} (hbh : ∀ a, bh = some a → 0 < H.badness a)
    (h : ∃ a ∈ rest, (H.head a).bCount = 0 ∧ H.badness a = 0) : ∃ b, H.choose rest bh = some b ∧ H.badness b = 0 := by
  induction rest generalizing bh with
  | nil =>
    obtain ⟨a, ha, -⟩ := h
    cases ha
  | cons tmp rest ih =>
    obtain ⟨a, ha, hcount, hgood⟩ := h
    unfold choose
    by_cases hused : (H.head tmp).bCount ≠ 0
    · rw [if_pos hused]
      refine ih hbh ⟨a, ?_, hcount, hgood⟩
      exact (List.mem_cons.mp ha).resolve_left fun heq => hused (heq ▸ hcount)
    · rw [if_neg hused]
      by_cases hzero : H.badness tmp = 0
      · refine ⟨tmp, ?_, hzero⟩
        rw [if_pos, if_pos hzero]
        cases bh with
        | none => rfl
        | some c =>
          rw [Option.all_some, decide_eq_true_eq, hzero]
          exact hbh c rfl
      · have hrest : a ∈ rest := (List.mem_cons.mp ha).resolve_left fun heq => hzero (heq ▸ hgood)
        split
        · refine ih (fun c hc => ?_) ⟨a, hrest, hcount, hgood⟩
          cases hc
          exact Nat.pos_of_ne_zero hzero
        · exact ih hbh ⟨a, hrest, hcount, hgood⟩

end Heads

end Linux011.Fs
