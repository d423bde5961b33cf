import Mathlib.Data.Finset.Card
import Mathlib.Data.Finset.Range
import Mathlib.Data.List.Basic
import Mathlib.Logic.Relation
import Mathlib.Tactic.Push
import Linux011.Blk.Request
import Linux011.Fs.BufferHeads
import Linux011.Lib.Inevitable

/-!
# Whether `getblk` returns

`getblk`, `sync_dev` and `ll_rw_block`, over the buffer heads, one place where they can sleep after the
other. A buffer whose request is queued is locked until the request completes. There are no dirty
inodes, which `sync_dev` would write back too.

`ll_rw_block` does nothing for a device without a driver. Such a buffer stays dirty, and `getblk` has to
write a dirty buffer back before it can reuse it.
-/

namespace Linux011.Fs

namespace Heads

/-- What `ll_rw_block` looks at before it makes a request: `MAJOR`, and whether there is a `request_fn`. -/
def driven (requestFn : Nat → Bool) (dev : Nat) : Bool :=
  decide (dev / 256 < Blk.nrBlkDev) && requestFn (dev / 256)

/-- `find_buffer`. Buffers of device 0 are in no hash queue. -/
def lookup (H : Heads) (dev block : Nat) : Option Nat :=
  if dev = 0 then none else H.findBuffer dev block

/-- `add_request`: the buffer is not dirty any more, and locked until the request completes. -/
def addRequest (b : Nat) (H : Heads) : Heads :=
  H.set b { H.head b with bDirt := false, bLock := true }

/-- `end_request`, with what the disk has done. -/
def endRequest (b : Nat) (uptodate : Bool) (data : Nat → UInt8) (H : Heads) : Heads :=
  H.set b { H.head b with bLock := false, bUptodate := uptodate, bData := data }

/-! ## `getblk` -/

/-- Where `getblk` is: at the label `repeat`; in `get_hash_table` with the buffer `b`; asleep on
`buffer_wait`; behind its choice of `b`; at the condition of its `while`; in pass 1 or 2 of `sync_dev`, at
buffer `i`; behind `sync_dev`; or about to return. -/
inductive GetblkPc where
  | again
  | hashed (b : Nat)
  | sleeping
  | chosen (b : Nat)
  | dirt (b : Nat)
  | sync (b dev : Nat) (second : Bool) (i : Nat)
  | synced (b : Nat)
  | done (b : Nat)
  deriving DecidableEq

/-- One buffer of a pass of `sync_dev`, or the end of the pass. -/
def syncDev (requestFn : Nat → Bool) (b dev : Nat) (second : Bool) (i : Nat) (H : Heads) :
    Option (GetblkPc × Heads) :=
  if i < H.nrBuffers then
    if (H.head i).bDev ≠ dev then some (.sync b dev second (i + 1), H)
    else if (H.head i).bLock then none
    else if (H.head i).bDirt && driven requestFn dev then some (.sync b dev second (i + 1), H.addRequest i)
    else some (.sync b dev second (i + 1), H)
  else if second then some (.synced b, H)
  else some (.sync b dev true 0, H)

/-- A step of `getblk`; `none` where it waits for a buffer, or sleeps. -/
def getblkStep (requestFn : Nat → Bool) (dev block : Nat) : GetblkPc → Heads → Option (GetblkPc × Heads)
  | .again, H =>
    match H.lookup dev block with
    | some b => some (.hashed b, H.set b { H.head b with bCount := (H.head b).bCount + 1 })
    | none =>
      match H.choose H.freeList none with
      | none => some (.sleeping, H)
      | some b => some (.chosen b, H)
  | .hashed b, H =>
    if (H.head b).bLock then none
    else if H.Is b dev block then some (.done b, H)
    else some (.again, H.set b { H.head b with bCount := (H.head b).bCount - 1 })
  | .sleeping, _ => none
  | .chosen b, H =>
    if (H.head b).bLock then none
    else if (H.head b).bCount ≠ 0 then some (.again, H)
    else some (.dirt b, H)
  | .dirt b, H =>
    if (H.head b).bDirt then some (.sync b (H.head b).bDev false 0, H)
    else if (H.lookup dev block).isSome then some (.again, H)
    else some (.done b, H.reassign b dev block)
  | .sync b d second i, H => syncDev requestFn b d second i H
  | .synced b, H =>
    if (H.head b).bLock then none
    else if (H.head b).bCount ≠ 0 then some (.again, H)
    else some (.dirt b, H)
  | .done _, _ => none

/-- A step of `getblk`, or a request that completes. -/
inductive Alone (requestFn : Nat → Bool) (dev block : Nat) : GetblkPc × Heads → GetblkPc × Heads → Prop
  | own {pc : GetblkPc} {H : Heads} {r : GetblkPc × Heads} (h : getblkStep requestFn dev block pc H = some r) :
      Alone requestFn dev block (pc, H) r
  | complete {pc : GetblkPc} {H : Heads} {b : Nat} {uptodate : Bool} {data : Nat → UInt8} (hb : b < H.nrBuffers)
      (hlock : (H.head b).bLock = true) : Alone requestFn dev block (pc, H) (pc, H.endRequest b uptodate data)

/-- `getblk` returns a buffer of the block. -/
def Returned (dev block : Nat) (s : GetblkPc × Heads) : Prop :=
  ∃ b, s.1 = .done b ∧ s.2.Is b dev block

/-! ## What other calls do -/

/-- What a statement of `getblk`, `bread`, `breada`, `block_write`, `block_read` or `brelse` does to the buffer
heads, in whatever process: a reference is taken or dropped, a buffer gets another block, a request is queued
or completes, and who has a reference writes into the buffer. -/
inductive Step (requestFn : Nat → Bool) (H : Heads) : Heads → Prop
  | get {b dev block : Nat} (h : H.lookup dev block = some b) :
      Step requestFn H (H.set b { H.head b with bCount := (H.head b).bCount + 1 })
  | put {b : Nat} (hb : b < H.nrBuffers) (hcount : 0 < (H.head b).bCount) :
      Step requestFn H (H.set b { H.head b with bCount := (H.head b).bCount - 1 })
  | reuse {b dev block : Nat} (hb : b < H.nrBuffers) (hcount : (H.head b).bCount = 0)
      (hdirt : (H.head b).bDirt = false) (hlock : (H.head b).bLock = false) (hnone : H.lookup dev block = none) :
      Step requestFn H (H.reassign b dev block)
  | request {b : Nat} (hb : b < H.nrBuffers) (hdriven : driven requestFn (H.head b).bDev = true)
      (hlock : (H.head b).bLock = false) : Step requestFn H (H.addRequest b)
  | complete {b : Nat} {uptodate : Bool} {data : Nat → UInt8} (hb : b < H.nrBuffers)
      (hlock : (H.head b).bLock = true) : Step requestFn H (H.endRequest b uptodate data)
  | write {b : Nat} {data : Nat → UInt8} (hb : b < H.nrBuffers) (hcount : 0 < (H.head b).bCount) :
      Step requestFn H (H.set b { H.head b with bData := data, bDirt := true })

/-- After `buffer_init`. -/
structure Start (H : Heads) : Prop where
  head : ∀ b, (H.head b).bDev = 0 ∧ (H.head b).bCount = 0 ∧ (H.head b).bDirt = false ∧ (H.head b).bLock = false
  freeList : H.freeList = List.range H.nrBuffers

/-- All buffers are in the free list, and only a buffer of a device with a driver is ever locked. -/
structure Tidy (requestFn : Nat → Bool) (H : Heads) : Prop where
  mem : ∀ b, b ∈ H.freeList ↔ b < H.nrBuffers
  lock : ∀ b, (H.head b).bLock = true → driven requestFn (H.head b).bDev = true

variable {requestFn : Nat → Bool} {H H' : Heads} {b dev block : Nat}

theorem Start.tidy (h : H.Start) : H.Tidy requestFn := by
  refine ⟨fun b => by rw [h.freeList, List.mem_range], fun b hb => ?_⟩
  rw [(h.head b).2.2.2] at hb
  cases hb

theorem Tidy.set (h : H.Tidy requestFn) {n : Head} (hlock : n.bLock = true → driven requestFn n.bDev = true) :
    (H.set b n).Tidy requestFn := by
  refine ⟨h.mem, fun a ha => ?_⟩
  rw [head_set] at ha ⊢
  split
  · next heq => exact hlock (by rwa [if_pos heq] at ha)
  · next hne => exact h.lock a (by rwa [if_neg hne] at ha)

theorem Step.tidy (h : H.Tidy requestFn) (hstep : Step requestFn H H') : H'.Tidy requestFn := by
  cases hstep with
  | get => exact h.set (h.lock _)
  | put => exact h.set (h.lock _)
  | request hb hdriven => exact h.set fun _ => hdriven
  | complete => exact h.set fun hl => by cases hl
  | write => exact h.set (h.lock _)
  | @reuse b dev block hb hcount hdirt hlock hnone =>
    have hset := h.set (b := b) (n := { H.head b with
      bDev := dev, bBlocknr := block, bCount := 1, bDirt := false, bUptodate := false }) fun hl => by
        change (H.head b).bLock = true at hl
        rw [hlock] at hl
        cases hl
    refine ⟨fun a => ?_, hset.lock⟩
    change a ∈ H.freeList.erase b ++ [b] ↔ a < H.nrBuffers
    rw [List.mem_append, List.mem_singleton]
    by_cases hab : a = b
    · exact ⟨fun _ => hab ▸ hb, fun _ => .inr hab⟩
    · rw [List.mem_erase_of_ne hab, h.mem]
      exact ⟨fun hin => hin.resolve_right hab, .inl⟩

/-! ## The choice -/

/-- The first of the unreferenced buffers with the least badness. -/
structure Least (H : Heads) (l : List Nat) (b : Nat) : Prop where
  free : (H.head b).bCount = 0
  split : ∃ l₁ l₂, l = l₁ ++ b :: l₂ ∧ (∀ a ∈ l₁, (H.head a).bCount = 0 → H.badness b < H.badness a) ∧
    ∀ a ∈ l₂, (H.head a).bCount = 0 → H.badness b ≤ H.badness a

/-- Nothing better follows. -/
theorem choose_stay {l : List Nat} (h : ∀ a ∈ l, (H.head a).bCount = 0 → H.badness b ≤ H.badness a) :
    H.choose l (some b) = some b := by
  induction l with
  | nil => rfl
  | cons a l ih =>
    have hrest := ih fun c hc => h c (List.mem_cons_of_mem a hc)
    unfold choose
    split
    · exact hrest
    · next hcount =>
      have hle := h a List.mem_cons_self (not_not.mp hcount)
      have hworse : ¬ ((some b).all fun c => decide (H.badness a < H.badness c)) = true := by
        rw [Option.all_some, decide_eq_true_eq]
        exact Nat.not_lt.mpr hle
      rw [if_neg hworse]
      exact hrest

theorem choose_least {l : List Nat} (h : H.Least l b) : H.choose l none = some b := by
  obtain ⟨hfree, l₁, l₂, rfl, hbefore, hafter⟩ := h
  -- What has been chosen so far is worse.
  have hgen : ∀ bh : Option Nat, (∀ a, bh = some a → H.badness b < H.badness a) →
      H.choose (l₁ ++ b :: l₂) bh = some b := by
    induction l₁ with
    | nil =>
      intro bh hbh
      have hall : (bh.all fun a => decide (H.badness b < H.badness a)) = true := by
        cases bh with
        | none => rfl
        | some a => exact decide_eq_true (hbh a rfl)
      rw [List.nil_append, choose, if_neg (not_not.mpr hfree), if_pos hall]
      split
      · rfl
      · exact choose_stay hafter
    | cons c l₁ ih =>
      intro bh hbh
      have hih := ih fun a ha => hbefore a (List.mem_cons_of_mem c ha)
      rw [List.cons_append, choose]
      split
      · exact hih bh hbh
      · next hcount =>
        have hlt := hbefore c List.mem_cons_self (not_not.mp hcount)
        split
        · rw [if_neg (by omega)]
          refine hih _ fun a ha => ?_
          cases ha
          exact hlt
        · exact hih bh hbh
  exact hgen none fun a ha => by cases ha

theorem least_of_choose {l : List Nat} (h : H.choose l none = some b) : H.Least l b := by
  have hgen : ∀ bh : Option Nat, H.choose l bh = some b →
      (bh = some b ∧ ∀ a ∈ l, (H.head a).bCount = 0 → H.badness b ≤ H.badness a) ∨
        (H.Least l b ∧ ∀ c, bh = some c → H.badness b < H.badness c) := by
    clear h
    induction l with
    | nil => exact fun bh h => .inl ⟨h, by simp⟩
    | cons a l ih =>
      intro bh h
      unfold choose at h
      split at h
      · next hcount =>
        rcases ih bh h with ⟨hbh, hall⟩ | ⟨⟨hfree, l₁, l₂, rfl, hbefore, hafter⟩, hbh⟩
        · refine .inl ⟨hbh, fun c hc hc0 => ?_⟩
          rcases List.mem_cons.mp hc with rfl | hc
          · exact absurd hc0 hcount
          · exact hall c hc hc0
        · refine .inr ⟨⟨hfree, a :: l₁, l₂, rfl, fun c hc hc0 => ?_, hafter⟩, hbh⟩
          rcases List.mem_cons.mp hc with rfl | hc
          · exact absurd hc0 hcount
          · exact hbefore c hc hc0
      · next hcount =>
        have hfree := not_not.mp hcount
        split at h
        · next hall =>
          -- The head of the list is better than what was chosen before.
          have hbetter : ∀ c, bh = some c → H.badness a < H.badness c := by
            intro c hc
            rw [hc, Option.all_some, decide_eq_true_eq] at hall
            exact hall
          split at h
          · next hzero =>
            cases h
            exact .inr ⟨⟨hfree, [], l, rfl, by simp, fun c _ _ => hzero ▸ Nat.zero_le _⟩, hbetter⟩
          · rcases ih _ h with ⟨heq, hall'⟩ | ⟨⟨hb0, l₁, l₂, rfl, hbefore, hafter⟩, hlt⟩
            · cases heq
              exact .inr ⟨⟨hfree, [], l, rfl, by simp, hall'⟩, hbetter⟩
            · have hba := hlt a rfl
              refine .inr ⟨⟨hb0, a :: l₁, l₂, rfl, fun c hc hc0 => ?_, hafter⟩,
                fun c hc => Nat.lt_trans hba (hbetter c hc)⟩
              rcases List.mem_cons.mp hc with rfl | hc
              · exact hba
              · exact hbefore c hc hc0
        · next hall =>
          -- It is not better, so the choice stays.
          obtain ⟨c, hc, hle⟩ : ∃ c, bh = some c ∧ H.badness c ≤ H.badness a := by
            cases bh with
            | none => exact absurd rfl hall
            | some c =>
              rw [Option.all_some, decide_eq_true_eq] at hall
              exact ⟨c, rfl, Nat.not_lt.mp hall⟩
          subst hc
          rcases ih _ h with ⟨heq, hall'⟩ | ⟨⟨hb0, l₁, l₂, rfl, hbefore, hafter⟩, hlt⟩
          · cases heq
            refine .inl ⟨rfl, fun e he he0 => ?_⟩
            rcases List.mem_cons.mp he with rfl | he
            · exact hle
            · exact hall' e he he0
          · have hbc := hlt c rfl
            refine .inr ⟨⟨hb0, a :: l₁, l₂, rfl, fun e he he0 => ?_, hafter⟩, hlt⟩
            rcases List.mem_cons.mp he with rfl | he
            · exact Nat.lt_of_lt_of_le hbc hle
            · exact hbefore e he he0
  rcases hgen none h with ⟨heq, -⟩ | ⟨hleast, -⟩
  · cases heq
  · exact hleast

/-- If a buffer is not referenced, one is chosen. -/
theorem choose_isSome {l : List Nat} (h : ∃ a ∈ l, (H.head a).bCount = 0) : (H.choose l none).isSome = true := by
  have hgen : ∀ bh : Option Nat, bh.isSome = true ∨ (∃ a ∈ l, (H.head a).bCount = 0) →
      (H.choose l bh).isSome = true := by
    clear h
    induction l with
    | nil =>
      rintro bh (hbh | ⟨a, ha, -⟩)
      · exact hbh
      · cases ha
    | cons c l ih =>
      intro bh hbh
      unfold choose
      split
      · next hcount =>
        refine ih bh (hbh.imp_right ?_)
        rintro ⟨a, ha, ha0⟩
        rcases List.mem_cons.mp ha with rfl | ha
        · exact absurd ha0 hcount
        · exact ⟨a, ha, ha0⟩
      · split
        · split
          · rfl
          · exact ih _ (.inl rfl)
        · next hall =>
          refine ih bh (.inl ?_)
          cases bh with
          | none => exact absurd rfl hall
          | some _ => rfl
  exact hgen none (.inr h)

/-! ## A choice that cannot be written back -/

/-- All unreferenced buffers are dirty, and the first of them that is not locked belongs to a device without a
driver. -/
structure Stuck (requestFn : Nat → Bool) (H : Heads) : Prop where
  dirt : ∀ a ∈ H.freeList, (H.head a).bCount = 0 → (H.head a).bDirt = true
  first : ∃ l₁ b l₂, H.freeList = l₁ ++ b :: l₂ ∧ (H.head b).bCount = 0 ∧
    driven requestFn (H.head b).bDev = false ∧ ∀ a ∈ l₁, (H.head a).bCount = 0 → (H.head a).bLock = true

theorem badness_eq (a : Nat) : H.badness a =
    (if (H.head a).bDirt = true then 2 else 0) + if (H.head a).bLock = true then 1 else 0 := by
  unfold badness
  cases (H.head a).bDirt <;> cases (H.head a).bLock <;> rfl

theorem Tidy.unlocked (h : H.Tidy requestFn) (hdriven : driven requestFn (H.head b).bDev = false) :
    (H.head b).bLock = false := by
  refine Bool.eq_false_iff.mpr fun hl => ?_
  rw [h.lock b hl] at hdriven
  cases hdriven

theorem Stuck.choose (ht : H.Tidy requestFn) (h : H.Stuck requestFn) : ∃ b, H.choose H.freeList none = some b ∧
    (H.head b).bCount = 0 ∧ (H.head b).bDirt = true ∧ driven requestFn (H.head b).bDev = false := by
  obtain ⟨l₁, b, l₂, hlist, hfree, hdriven, hlocked⟩ := h.first
  have hin : ∀ a, a ∈ l₁ ∨ a = b ∨ a ∈ l₂ → a ∈ H.freeList := fun a ha => by
    rw [hlist]
    simpa using ha
  have hb := h.dirt b (hin b (.inr (.inl rfl))) hfree
  refine ⟨b, choose_least ⟨hfree, l₁, l₂, hlist, fun a ha ha0 => ?_, fun a ha ha0 => ?_⟩, hfree, hb, hdriven⟩
  · have hd := h.dirt a (hin a (.inl ha)) ha0
    have hl := hlocked a ha ha0
    simp only [badness_eq, hd, hl, hb, ht.unlocked hdriven, if_true]
    decide
  · have hd := h.dirt a (hin a (.inr (.inr ha))) ha0
    simp only [badness_eq, hd, hb, ht.unlocked hdriven, if_true]
    simp

theorem stuck_of_choose (ht : H.Tidy requestFn) (h : H.choose H.freeList none = some b)
    (hdirt : (H.head b).bDirt = true) (hdriven : driven requestFn (H.head b).bDev = false) : H.Stuck requestFn := by
  obtain ⟨hfree, l₁, l₂, hlist, hbefore, hafter⟩ := least_of_choose h
  have hbad : H.badness b = 2 := by simp [badness_eq, hdirt, ht.unlocked hdriven]
  -- What stands before it is dirty and locked, what stands behind it is dirty.
  have hworse : ∀ a ∈ l₁, (H.head a).bCount = 0 → (H.head a).bDirt = true ∧ (H.head a).bLock = true := by
    intro a ha ha0
    have hlt := hbefore a ha ha0
    rw [hbad, badness_eq] at hlt
    split at hlt <;> split at hlt <;> simp_all
  refine ⟨fun a ha ha0 => ?_, l₁, b, l₂, hlist, hfree, hdriven, fun a ha ha0 => (hworse a ha ha0).2⟩
  rw [hlist, List.mem_append, List.mem_cons] at ha
  rcases ha with ha | rfl | ha
  · exact (hworse a ha ha0).1
  · exact hdirt
  · have hle := hafter a ha ha0
    rw [hbad, badness_eq] at hle
    split at hle
    · next hd => exact hd
    · split at hle <;> omega

/-! ## A request completes -/

/-- Requests have completed, or have been made. -/
structure Calm (H H' : Heads) : Prop where
  nrBuffers : H'.nrBuffers = H.nrBuffers
  freeList : H'.freeList = H.freeList
  dev : ∀ a, (H'.head a).bDev = (H.head a).bDev
  block : ∀ a, (H'.head a).bBlocknr = (H.head a).bBlocknr
  count : ∀ a, (H'.head a).bCount = (H.head a).bCount

theorem calm_set {n : Head} (hdev : n.bDev = (H.head b).bDev) (hblock : n.bBlocknr = (H.head b).bBlocknr)
    (hcount : n.bCount = (H.head b).bCount) : Calm H (H.set b n) := by
  refine ⟨rfl, rfl, fun a => ?_, fun a => ?_, fun a => ?_⟩ <;>
    · rw [head_set]
      split
      · next heq =>
        rw [heq]
        assumption
      · rfl

theorem Calm.is (h : Calm H H') (a : Nat) : H'.Is a dev block ↔ H.Is a dev block := by
  unfold Is
  rw [h.dev, h.block]

theorem Calm.lookup (h : Calm H H') : H'.lookup dev block = H.lookup dev block := by
  unfold Heads.lookup findBuffer
  rw [h.nrBuffers]
  simp only [h.is]

theorem dirt_endRequest (a x : Nat) (uptodate : Bool) (data : Nat → UInt8) :
    ((H.endRequest x uptodate data).head a).bDirt = (H.head a).bDirt := by
  rw [endRequest, head_set]
  split
  · next heq => rw [heq]
  · rfl

theorem lock_endRequest {a x : Nat} {uptodate : Bool} {data : Nat → UInt8}
    (h : ((H.endRequest x uptodate data).head a).bLock = true) : a ≠ x ∧ (H.head a).bLock = true := by
  rw [endRequest, head_set] at h
  split at h
  · cases h
  · next hne => exact ⟨hne, h⟩

/-- If the choice cannot be written back after a request has completed, it could not before. -/
theorem Stuck.of_endRequest {x : Nat} {uptodate : Bool} {data : Nat → UInt8}
    (h : (H.endRequest x uptodate data).Stuck requestFn) : H.Stuck requestFn := by
  have hcalm : Calm H (H.endRequest x uptodate data) := calm_set rfl rfl rfl
  obtain ⟨hdirt, l₁, b, l₂, hlist, hfree, hdriven, hlocked⟩ := h
  refine ⟨fun a ha ha0 => ?_, l₁, b, l₂, hlist, ?_, ?_, fun a ha ha0 => ?_⟩
  · rw [← dirt_endRequest a x uptodate data]
    exact hdirt a ha ((hcalm.count a).trans ha0)
  · rw [← hcalm.count, hfree]
  · rw [← hcalm.dev, hdriven]
  · exact (lock_endRequest (hlocked a ha ((hcalm.count a).trans ha0))).2

/-- How many buffers are locked. -/
def locks (H : Heads) : Nat :=
  ((Finset.range H.nrBuffers).filter fun a => (H.head a).bLock = true).card

theorem locks_endRequest {uptodate : Bool} {data : Nat → UInt8} (hb : b < H.nrBuffers)
    (hlock : (H.head b).bLock = true) : (H.endRequest b uptodate data).locks < H.locks := by
  apply Finset.card_lt_card
  refine Finset.ssubset_iff_subset_ne.mpr ⟨fun a ha => ?_, fun heq => ?_⟩
  · rw [Finset.mem_filter] at ha ⊢
    exact ⟨ha.1, (lock_endRequest ha.2).2⟩
  · have hin : b ∈ (Finset.range H.nrBuffers).filter fun a => (H.head a).bLock = true :=
      Finset.mem_filter.mpr ⟨Finset.mem_range.mpr hb, hlock⟩
    rw [← heq] at hin
    exact (lock_endRequest (Finset.mem_filter.mp hin).2).1 rfl

theorem locks_addRequest (b : Nat) : (H.addRequest b).locks ≤ H.locks + 1 := by
  refine (Finset.card_le_card (t := insert b ((Finset.range H.nrBuffers).filter fun a => (H.head a).bLock = true))
    fun a ha => ?_).trans (Finset.card_insert_le _ _)
  obtain ⟨hlt, hl⟩ := Finset.mem_filter.mp ha
  rw [addRequest, head_set] at hl
  split at hl
  · next heq => exact heq ▸ Finset.mem_insert_self ..
  · exact Finset.mem_insert_of_mem (Finset.mem_filter.mpr ⟨hlt, hl⟩)

/-! ## `getblk` returns -/

/-- A buffer that `getblk` can take, if need be after a write. -/
structure Candidate (requestFn : Nat → Bool) (dev block : Nat) (H : Heads) (b : Nat) : Prop where
  lt : b < H.nrBuffers
  count : (H.head b).bCount = 0
  absent : H.lookup dev block = none
  driven : (H.head b).bDirt = true → Heads.driven requestFn (H.head b).bDev = true

/-- Where `getblk` comes to, on its way to a return. -/
inductive Getting (requestFn : Nat → Bool) (dev block : Nat) (H : Heads) : GetblkPc → Prop
  | again (ht : H.Tidy requestFn) (hfree : ∃ a < H.nrBuffers, (H.head a).bCount = 0)
      (h : H.lookup dev block ≠ none ∨ ¬ H.Stuck requestFn) : Getting requestFn dev block H .again
  | hashed {b : Nat} (hb : b < H.nrBuffers) (h : H.Is b dev block) : Getting requestFn dev block H (.hashed b)
  | chosen {b : Nat} (h : H.Candidate requestFn dev block b) : Getting requestFn dev block H (.chosen b)
  | dirt {b : Nat} (h : H.Candidate requestFn dev block b) : Getting requestFn dev block H (.dirt b)
  | sync {b i : Nat} {second : Bool} (h : H.Candidate requestFn dev block b)
      (hdriven : Heads.driven requestFn (H.head b).bDev = true)
      (hdone : second = true ∨ b < i → (H.head b).bDirt = false) :
      Getting requestFn dev block H (.sync b (H.head b).bDev second i)
  | synced {b : Nat} (h : H.Candidate requestFn dev block b) (hdone : (H.head b).bDirt = false) :
      Getting requestFn dev block H (.synced b)

/-- A bound on the steps of `getblk`. The two passes of `sync_dev` look at each buffer once. -/
def ownSteps (H : Heads) : GetblkPc → Nat
  | .again => 2 * H.nrBuffers + 7
  | .hashed _ => 1
  | .sleeping => 0
  | .chosen b => if (H.head b).bDirt then 2 * H.nrBuffers + 6 else 2
  | .dirt b => if (H.head b).bDirt then 2 * H.nrBuffers + 5 else 1
  | .sync _ _ second i => if second then H.nrBuffers - i + 3 else H.nrBuffers - i + (H.nrBuffers + 4)
  | .synced _ => 2
  | .done _ => 0

variable {pc : GetblkPc}

theorem lookup_some (h : H.lookup dev block = some b) : b < H.nrBuffers ∧ H.Is b dev block := by
  unfold lookup at h
  split at h
  · cases h
  · exact findBuffer_some h

theorem Candidate.of_calm (h : H.Candidate requestFn dev block b) (hc : Calm H H')
    (hdirt : (H'.head b).bDirt = true → (H.head b).bDirt = true) : H'.Candidate requestFn dev block b := by
  refine ⟨hc.nrBuffers.symm ▸ h.lt, (hc.count b).trans h.count, hc.lookup.trans h.absent, fun hd => ?_⟩
  rw [hc.dev]
  exact h.driven (hdirt hd)

theorem Getting.endRequest (h : Getting requestFn dev block H pc) {x : Nat} {uptodate : Bool} {data : Nat → UInt8} :
    Getting requestFn dev block (H.endRequest x uptodate data) pc := by
  have hc : Calm H (H.endRequest x uptodate data) := calm_set rfl rfl rfl
  have hcand : ∀ {b}, H.Candidate requestFn dev block b →
      (H.endRequest x uptodate data).Candidate requestFn dev block b := fun {b} hb =>
    hb.of_calm hc fun hd => by rwa [dirt_endRequest] at hd
  cases h with
  | again ht hfree h =>
    refine .again (ht.set fun hl => by cases hl) ?_ (h.imp (fun hne => hc.lookup.symm ▸ hne) fun hn hs => hn hs.of_endRequest)
    obtain ⟨a, ha, ha0⟩ := hfree
    exact ⟨a, ha, (hc.count a).trans ha0⟩
  | hashed hb h => exact .hashed hb ((hc.is _).mpr h)
  | chosen h => exact .chosen (hcand h)
  | dirt h => exact .dirt (hcand h)
  | @sync b i second h hdriven hdone =>
    rw [← hc.dev b]
    refine .sync (hcand h) (by rwa [hc.dev]) fun hi => ?_
    rw [dirt_endRequest]
    exact hdone hi
  | synced h hdone => exact .synced (hcand h) (by rwa [dirt_endRequest])

theorem ownSteps_endRequest {x : Nat} {uptodate : Bool} {data : Nat → UInt8} :
    (H.endRequest x uptodate data).ownSteps pc = H.ownSteps pc := by
  cases pc <;> simp only [ownSteps, dirt_endRequest] <;> rfl

/-- A step of a pass of `sync_dev`. -/
theorem Getting.syncDev {second : Bool} {i : Nat} {r : GetblkPc × Heads} (h : H.Candidate requestFn dev block b)
    (hdriven : Heads.driven requestFn (H.head b).bDev = true)
    (hdone : second = true ∨ b < i → (H.head b).bDirt = false)
    (hr : Heads.syncDev requestFn b (H.head b).bDev second i H = some r) : Getting requestFn dev block r.2 r.1 ∧
      r.2.ownSteps r.1 < H.ownSteps (.sync b (H.head b).bDev second i) ∧ r.2.locks ≤ H.locks + 1 := by
  unfold Heads.syncDev at hr
  split at hr
  · next hi =>
    have hless : ∀ H' : Heads, H'.nrBuffers = H.nrBuffers →
        H'.ownSteps (.sync b (H.head b).bDev second (i + 1)) < H.ownSteps (.sync b (H.head b).bDev second i) := by
      intro H' hn
      simp only [ownSteps, hn]
      split <;> omega
    -- The pass goes on behind a buffer that is not the candidate, or is clean.
    have hskip : (i = b → (H.head b).bDirt = false) → Getting requestFn dev block H
        (.sync b (H.head b).bDev second (i + 1)) := fun hb =>
      .sync h hdriven fun hcase => by
        rcases Nat.lt_trichotomy b i with hlt | heq | hgt
        · exact hdone (.inr hlt)
        · exact hb heq.symm
        · exact hdone (.inl (hcase.resolve_right (by omega)))
    split at hr
    · next hne =>
      cases hr
      exact ⟨hskip fun heq => absurd (heq ▸ rfl) hne, hless H rfl, Nat.le_succ _⟩
    · next heq =>
      have heq := not_not.mp heq
      split at hr
      · cases hr
      · split at hr
        · cases hr
          have hc : Calm H (H.addRequest i) := calm_set rfl rfl rfl
          have hdirt : ∀ a, ((H.addRequest i).head a).bDirt = true → a ≠ i ∧ (H.head a).bDirt = true := by
            intro a ha
            rw [addRequest, head_set] at ha
            split at ha
            · cases ha
            · next hne => exact ⟨hne, ha⟩
          refine ⟨?_, hless _ rfl, locks_addRequest i⟩
          rw [← hc.dev b]
          refine .sync (h.of_calm hc fun hd => (hdirt b hd).2) (by rwa [hc.dev]) fun hcase => ?_
          refine Bool.eq_false_iff.mpr fun hd => ?_
          obtain ⟨hne, hold⟩ := hdirt b hd
          rw [hdone (hcase.imp_right (by omega))] at hold
          cases hold
        · next hclean =>
          cases hr
          refine ⟨hskip fun hib => ?_, hless H rfl, Nat.le_succ _⟩
          refine Bool.eq_false_iff.mpr fun hd => hclean ?_
          rw [hib, hd, hdriven]
          rfl
  · next hi =>
    have hlt := h.lt
    split at hr
    · next hsecond =>
      cases hr
      refine ⟨.synced h (hdone (.inl hsecond)), ?_, Nat.le_succ _⟩
      simp only [ownSteps, hsecond, if_true]
      omega
    · next hfirst =>
      cases hr
      refine ⟨.sync h hdriven fun _ => hdone (.inr (by omega)), ?_, Nat.le_succ _⟩
      simp only [ownSteps, if_true, if_neg hfirst]
      omega

theorem Getting.own (h : Getting requestFn dev block H pc) {r : GetblkPc × Heads}
    (hr : getblkStep requestFn dev block pc H = some r) : Returned dev block r ∨
      Getting requestFn dev block r.2 r.1 ∧ r.2.ownSteps r.1 < H.ownSteps pc ∧ r.2.locks ≤ H.locks + 1 := by
  cases h with
  | again ht hfree h =>
    simp only [getblkStep] at hr
    split at hr
    · next b hb =>
      cases hr
      obtain ⟨hlt, his⟩ := lookup_some hb
      refine .inr ⟨.hashed hlt ?_, ?_, ?_⟩
      · simpa [Is] using his
      · simp only [ownSteps]
        omega
      · have hlocks : (H.set b { H.head b with bCount := (H.head b).bCount + 1 }).locks = H.locks := by
          unfold locks
          congr 1
          refine Finset.filter_congr fun a _ => ?_
          rw [head_set]
          split
          · next heq => rw [heq]
          · rfl
        exact hlocks.le.trans (Nat.le_succ _)
    · next hnone =>
      split at hr
      · next hchoose =>
        obtain ⟨a, ha, ha0⟩ := hfree
        have hsome := choose_isSome ⟨a, (ht.mem a).mpr ha, ha0⟩
        rw [hchoose] at hsome
        cases hsome
      · next b hchoose =>
        cases hr
        have hstuck := h.resolve_left (not_not.mpr hnone)
        have hleast := least_of_choose hchoose
        have hin : b ∈ H.freeList := by
          obtain ⟨l₁, l₂, hlist, -⟩ := hleast.split
          rw [hlist]
          simp
        refine .inr ⟨.chosen ⟨(ht.mem b).mp hin, hleast.free, hnone, fun hd => ?_⟩, ?_, Nat.le_succ _⟩
        · refine not_not.mp fun hn => hstuck (stuck_of_choose ht hchoose hd (Bool.eq_false_iff.mpr hn))
        · simp only [ownSteps]
          split <;> omega
  | hashed hb h =>
    simp only [getblkStep, if_pos h] at hr
    split at hr
    · cases hr
    · cases hr
      exact .inl ⟨_, rfl, h⟩
  | chosen h =>
    simp only [getblkStep, h.count] at hr
    split at hr
    · cases hr
    · cases hr
      refine .inr ⟨.dirt h, ?_, Nat.le_succ _⟩
      simp only [ownSteps]
      split <;> omega
  | @dirt b h =>
    simp only [getblkStep] at hr
    split at hr
    · next hd =>
      cases hr
      refine .inr ⟨.sync h (h.driven hd) fun hcase => ?_, ?_, Nat.le_succ _⟩
      · simp at hcase
      · simp [ownSteps, hd]
        omega
    · rw [h.absent] at hr
      cases hr
      refine .inl ⟨b, rfl, ?_⟩
      unfold Is
      rw [head_reassign, if_pos rfl]
      exact ⟨rfl, rfl⟩
  | sync h hdriven hdone => exact .inr (Getting.syncDev h hdriven hdone hr)
  | synced h hdone =>
    simp only [getblkStep, h.count] at hr
    split at hr
    · cases hr
    · cases hr
      refine .inr ⟨.dirt h, ?_, Nat.le_succ _⟩
      simp [ownSteps, hdone]

/-- While it is on its way, there is always a step: what it waits for is a request that completes. -/
theorem Getting.move (h : Getting requestFn dev block H pc) : ∃ r, Alone requestFn dev block (pc, H) r := by
  have hwait : ∀ a < H.nrBuffers, (H.head a).bLock = true → ∃ r, Alone requestFn dev block (pc, H) r :=
    fun a ha hl => ⟨(pc, H.endRequest a true (H.head a).bData), .complete ha hl⟩
  have hown : (getblkStep requestFn dev block pc H).isSome = true → ∃ r, Alone requestFn dev block (pc, H) r := by
    intro hsome
    obtain ⟨r, hr⟩ := Option.isSome_iff_exists.mp hsome
    exact ⟨r, .own hr⟩
  cases h with
  | again ht hfree h =>
    apply hown
    simp only [getblkStep]
    split
    · rfl
    · split <;> rfl
  | @hashed b hb h =>
    by_cases hl : (H.head b).bLock = true
    · exact hwait b hb hl
    · exact hown (by simp [getblkStep, hl, h])
  | @chosen b h =>
    by_cases hl : (H.head b).bLock = true
    · exact hwait b h.lt hl
    · exact hown (by simp [getblkStep, hl, h.count])
  | dirt h =>
    apply hown
    simp only [getblkStep]
    split
    · rfl
    · split <;> rfl
  | @sync b i second h _ _ =>
    by_cases hl : i < H.nrBuffers ∧ (H.head i).bLock = true
    · exact hwait i hl.1 hl.2
    · apply hown
      simp only [getblkStep, Heads.syncDev]
      split
      · next hi =>
        rw [if_neg fun hlock => hl ⟨hi, hlock⟩]
        split
        · rfl
        · split <;> rfl
      · split <;> rfl
  | @synced b h _ =>
    by_cases hl : (H.head b).bLock = true
    · exact hwait b h.lt hl
    · exact hown (by simp [getblkStep, hl, h.count])

theorem Getting.inevitable (h : Getting requestFn dev block H pc) :
    Lib.Inevitable (Alone requestFn dev block) (Returned dev block) (pc, H) := by
  have hstart : Getting requestFn dev block (pc, H).2 (pc, H).1 := h
  refine Lib.Inevitable.of_measure (P := fun s => Getting requestFn dev block s.2 s.1)
    (m := fun s => 2 * s.2.ownSteps s.1 + s.2.locks) (fun s hs _ => hs.move) (fun s s' hs _ hstep => ?_) hstart
  cases hstep with
  | own hr =>
    rcases hs.own hr with hdone | ⟨hnext, hless, hlocks⟩
    · exact .inl hdone
    · refine .inr ⟨hnext, ?_⟩
      omega
  | complete hb hl =>
    refine .inr ⟨hs.endRequest, ?_⟩
    simp only [ownSteps_endRequest]
    exact Nat.add_lt_add_left (locks_endRequest hb hl) _

/-! ## `getblk` does not return -/

/-- `getblk` goes round with a dirty buffer that `ll_rw_block` does not write. -/
structure Doomed (requestFn : Nat → Bool) (H : Heads) (b : Nat) (pc : GetblkPc) : Prop where
  lt : b < H.nrBuffers
  count : (H.head b).bCount = 0
  dirt : (H.head b).bDirt = true
  driven : Heads.driven requestFn (H.head b).bDev = false
  place : pc = .chosen b ∨ pc = .dirt b ∨ (∃ second i, pc = .sync b (H.head b).bDev second i) ∨ pc = .synced b

theorem Doomed.endRequest (h : Doomed requestFn H b pc) {x : Nat} {uptodate : Bool} {data : Nat → UInt8} :
    Doomed requestFn (H.endRequest x uptodate data) b pc := by
  have hc : Calm H (H.endRequest x uptodate data) := calm_set rfl rfl rfl
  refine ⟨h.lt, (hc.count b).trans h.count, (dirt_endRequest ..).trans h.dirt, ?_, ?_⟩
  · rw [hc.dev]
    exact h.driven
  · rw [hc.dev]
    exact h.place

theorem Doomed.move (h : Doomed requestFn H b pc) :
    ∃ r, Alone requestFn dev block (pc, H) r ∧ ∃ b, Doomed requestFn r.2 b r.1 := by
  have hwait : ∀ a < H.nrBuffers, (H.head a).bLock = true →
      ∃ r, Alone requestFn dev block (pc, H) r ∧ ∃ b, Doomed requestFn r.2 b r.1 :=
    fun a ha hl => ⟨(pc, H.endRequest a true (H.head a).bData), .complete ha hl, b, h.endRequest⟩
  obtain ⟨hlt, hcount, hdirt, hdriven, hplace⟩ := h
  have hdoom : ∀ pc', (pc' = .chosen b ∨ pc' = .dirt b ∨ (∃ second i, pc' = .sync b (H.head b).bDev second i) ∨
      pc' = .synced b) → Doomed requestFn H b pc' := fun pc' hp => ⟨hlt, hcount, hdirt, hdriven, hp⟩
  rcases hplace with rfl | rfl | ⟨second, i, rfl⟩ | rfl
  · by_cases hl : (H.head b).bLock = true
    · exact hwait b hlt hl
    · exact ⟨(.dirt b, H), .own (by simp [getblkStep, hl, hcount]), b, hdoom _ (.inr (.inl rfl))⟩
  · exact ⟨(.sync b (H.head b).bDev false 0, H), .own (by simp [getblkStep, hdirt]), b,
      hdoom _ (.inr (.inr (.inl ⟨_, _, rfl⟩)))⟩
  · by_cases hi : i < H.nrBuffers
    · by_cases hl : (H.head i).bLock = true
      · exact hwait i hi hl
      · refine ⟨(.sync b (H.head b).bDev second (i + 1), H), .own ?_, b, hdoom _ (.inr (.inr (.inl ⟨_, _, rfl⟩)))⟩
        simp [getblkStep, syncDev, hi, hl, hdriven]
    · cases second with
      | true => exact ⟨(.synced b, H), .own (by simp [getblkStep, syncDev, hi]), b, hdoom _ (.inr (.inr (.inr rfl)))⟩
      | false =>
        exact ⟨(.sync b (H.head b).bDev true 0, H), .own (by simp [getblkStep, syncDev, hi]), b,
          hdoom _ (.inr (.inr (.inl ⟨_, _, rfl⟩)))⟩
  · by_cases hl : (H.head b).bLock = true
    · exact hwait b hlt hl
    · exact ⟨(.dirt b, H), .own (by simp [getblkStep, hl, hcount]), b, hdoom _ (.inr (.inl rfl))⟩

theorem Stuck.not_inevitable (ht : H.Tidy requestFn) (h : H.Stuck requestFn) (habsent : H.lookup dev block = none) :
    ¬ Lib.Inevitable (Alone requestFn dev block) (Returned dev block) (.again, H) := by
  obtain ⟨b, hchoose, hcount, hdirt, hdriven⟩ := h.choose ht
  have hlt : b < H.nrBuffers := by
    obtain ⟨l₁, l₂, hlist, -⟩ := (least_of_choose hchoose).split
    rw [← ht.mem, hlist]
    simp
  apply Lib.Inevitable.not_of_loop (K := fun s => s = (.again, H) ∨ ∃ b, Doomed requestFn s.2 b s.1)
  · rintro s (rfl | ⟨b', hdoomed⟩)
    · refine ⟨fun ⟨_, hdone, _⟩ => (by cases hdone), (.chosen b, H), .own ?_, .inr ⟨b, hlt, hcount, hdirt, hdriven,
        .inl rfl⟩⟩
      simp only [getblkStep, habsent, hchoose]
    · refine ⟨?_, ?_⟩
      · rintro ⟨a, hdone, -⟩
        rcases hdoomed.place with hp | hp | ⟨_, _, hp⟩ | hp <;> rw [hdone] at hp <;> cases hp
      · obtain ⟨r, hr, hnext⟩ := hdoomed.move
        exact ⟨r, hr, .inr hnext⟩
  · exact .inl rfl

/-- In any state that the calls can lead to, with a buffer that is not referenced: `getblk` returns if and only if
the block is in a buffer already, or not all unreferenced buffers are dirty, or the first of them that is not
locked belongs to a device with a driver. -/
theorem getblk_returns_iff {H₀ : Heads} (hstart : H₀.Start)
    (hrun : Relation.ReflTransGen (Step requestFn) H₀ H) (hfree : ∃ a < H.nrBuffers, (H.head a).bCount = 0) :
    Lib.Inevitable (Alone requestFn dev block) (Returned dev block) (.again, H) ↔
      H.lookup dev block ≠ none ∨ ¬ H.Stuck requestFn := by
  have ht : H.Tidy requestFn :=
    Lib.invariant_of_run (I := fun H => H.Tidy requestFn) (fun _ _ h hstep => hstep.tidy h) hstart.tidy hrun
  constructor
  · intro hend
    by_cases habsent : H.lookup dev block = none
    · exact .inr fun hstuck => hstuck.not_inevitable ht habsent hend
    · exact .inl habsent
  · exact fun h => (Getting.again ht hfree h).inevitable

/-- Two buffers, and a driver for the disks of major number 3. -/
def twoBuffers : Heads where
  nrBuffers := 2
  head _ := ⟨0, 0, 0, false, false, false, fun _ => 0⟩
  freeList := [0, 1]

def onlyHd (major : Nat) : Bool := major == 3

theorem twoBuffers_start : twoBuffers.Start :=
  ⟨fun _ => ⟨rfl, rfl, rfl, rfl⟩, rfl⟩

/-- What `block_write` does when it writes block `block` of `dev` as a whole: `getblk` takes buffer `b`, the
bytes are written, and `brelse` drops the reference. -/
def writeBlock (b dev block : Nat) (H : Heads) : Heads :=
  let H := H.reassign b dev block
  let H := H.set b { H.head b with bData := fun _ => 1, bDirt := true }
  H.set b { H.head b with bCount := (H.head b).bCount - 1 }

theorem run_writeBlock {H₀ : Heads} (hrun : Relation.ReflTransGen (Step requestFn) H₀ H) (hb : b < H.nrBuffers)
    (hcount : (H.head b).bCount = 0) (hdirt : (H.head b).bDirt = false) (hlock : (H.head b).bLock = false)
    (hnone : H.lookup dev block = none) : Relation.ReflTransGen (Step requestFn) H₀ (H.writeBlock b dev block) := by
  have hone : ((H.reassign b dev block).head b).bCount = 1 := by
    rw [head_reassign, if_pos rfl]
  have htwo : (((H.reassign b dev block).set b { (H.reassign b dev block).head b with
      bData := fun _ => 1, bDirt := true }).head b).bCount = 1 := by
    rw [head_set, if_pos rfl]
    exact hone
  exact ((hrun.tail (.reuse hb hcount hdirt hlock hnone)).tail (.write hb (by omega))).tail
    (.put hb (by omega))

/-- After two blocks of the hard disk have been written, a third one gets a buffer. -/
theorem getblk_returns_hd : ∃ H, Relation.ReflTransGen (Step onlyHd) twoBuffers H ∧
    (∀ a < H.nrBuffers, (H.head a).bDirt = true) ∧
    Lib.Inevitable (Alone onlyHd 0x301 9) (Returned 0x301 9) (.again, H) := by
  have h₁ : Relation.ReflTransGen (Step onlyHd) twoBuffers (twoBuffers.writeBlock 0 0x301 7) :=
    run_writeBlock .refl (by decide) rfl rfl rfl rfl
  have h₂ : Relation.ReflTransGen (Step onlyHd) twoBuffers
      ((twoBuffers.writeBlock 0 0x301 7).writeBlock 1 0x301 8) :=
    run_writeBlock h₁ (by decide) rfl rfl rfl rfl
  refine ⟨_, h₂, fun a ha => ?_, (getblk_returns_iff twoBuffers_start h₂ ⟨0, by decide, rfl⟩).mpr
    (.inr fun hstuck => ?_)⟩
  · change a < 2 at ha
    obtain rfl | rfl : a = 0 ∨ a = 1 := by omega
    · rfl
    · rfl
  · obtain ⟨l₁, b, l₂, hlist, -, hdriven, -⟩ := hstuck.first
    have hb : b ∈ [0, 1] := by
      change [0, 1] = l₁ ++ b :: l₂ at hlist
      rw [hlist]
      simp
    obtain rfl | rfl : b = 0 ∨ b = 1 := by simpa using hb
    · exact absurd hdriven (by decide)
    · exact absurd hdriven (by decide)

/-- Two blocks of a device without a driver have been written, and no block of the hard disk gets a buffer. -/
theorem getblk_loops : ∃ H, Relation.ReflTransGen (Step onlyHd) twoBuffers H ∧
    (∀ a < H.nrBuffers, (H.head a).bCount = 0) ∧
    ¬ Lib.Inevitable (Alone onlyHd 0x301 9) (Returned 0x301 9) (.again, H) := by
  have h₁ : Relation.ReflTransGen (Step onlyHd) twoBuffers (twoBuffers.writeBlock 0 0x700 7) :=
    run_writeBlock .refl (by decide) rfl rfl rfl rfl
  have h₂ : Relation.ReflTransGen (Step onlyHd) twoBuffers
      ((twoBuffers.writeBlock 0 0x700 7).writeBlock 1 0x700 8) :=
    run_writeBlock h₁ (by decide) rfl rfl rfl rfl
  have ht := Lib.invariant_of_run (I := fun H => H.Tidy onlyHd) (fun _ _ h hstep => hstep.tidy h)
    twoBuffers_start.tidy h₂
  refine ⟨_, h₂, fun a ha => ?_, Stuck.not_inevitable ht ⟨fun a ha _ => ?_, [], 0, [1], rfl, rfl, by decide,
    by simp⟩ rfl⟩
  · change a < 2 at ha
    obtain rfl | rfl : a = 0 ∨ a = 1 := by omega
    · rfl
    · rfl
  · change a ∈ [0, 1] at ha
    obtain rfl | rfl : a = 0 ∨ a = 1 := by simpa using ha
    · rfl
    · rfl

end Heads

end Linux011.Fs
