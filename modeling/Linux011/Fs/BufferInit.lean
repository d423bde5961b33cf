import Mathlib.Algebra.Group.Nat.Defs
import Linux011.Fs.BufferLists

/-!
# `buffer_init`

The buffer heads grow upwards from the end of the kernel, and the data blocks grow downwards from `buffer_end`
until they meet. Addresses have 32 bits, and the hole between 640 kB and 1 MB holds no data block.

`Placed` says where everything is, and `Represents` that the heads are those that `BufferCache.bufferInit` starts
with.
-/

namespace Linux011.Fs

/-- `struct buffer_head`, with the addresses that its pointers hold. -/
structure BufferHead where
  bData : Nat
  bBlocknr : Nat
  bDev : Nat
  bUptodate : Nat
  bDirt : Nat
  bCount : Nat
  bLock : Nat
  bWait : Nat
  bPrev : Nat
  bNext : Nat
  bPrevFree : Nat
  bNextFree : Nat

/-- The buffer heads by their addresses, and the variables of the cache. -/
structure BufferMemory where
  heads : Nat → BufferHead
  nrBuffers : Nat
  freeList : Nat
  hashTable : Nat → Nat

namespace BufferMemory

/-- `sizeof(struct buffer_head)` -/
def headSize : Nat := 36

/-- `BLOCK_SIZE` -/
def blockSize : Nat := 1024

/-- The address `n` bytes before `p`. -/
def before (p n : Nat) : Nat := (p + 2 ^ 32 - n) % 2 ^ 32

/-- `h` and `b` of `buffer_init`, and what it has written. -/
structure Loop where
  h : Nat
  b : Nat
  heads : Nat → BufferHead
  nrBuffers : Nat

/-- What the loop writes to the head `h` with data block `b`. `b_blocknr` stays as it is. -/
def initHead (h b : Nat) (old : BufferHead) : BufferHead where
  bData := b
  bBlocknr := old.bBlocknr
  bDev := 0
  bUptodate := 0
  bDirt := 0
  bCount := 0
  bLock := 0
  bWait := 0
  bPrev := 0
  bNext := 0
  bPrevFree := before h headSize
  bNextFree := h + headSize

/-- The body of the loop, with data block `b`. -/
def Loop.body (b : Nat) (s : Loop) : Loop where
  h := s.h + headSize
  b := if b = 0x100000 then 0xA0000 else b
  heads := Function.update s.heads s.h (initHead s.h b (s.heads s.h))
  nrBuffers := s.nrBuffers + 1

/-- The loop of `buffer_init`; `none` when `fuel` tests are not enough. -/
def loop : Nat → Loop → Option Loop
  | 0, _ => none
  | fuel + 1, s =>
    let b := before s.b blockSize
    if s.h + headSize ≤ b then loop fuel (s.body b) else some { s with b }

/-- Where the first data block ends. -/
def top (bufferEnd : Nat) : Nat := if bufferEnd = 0x100000 then 640 * 1024 else bufferEnd

/-- The statements behind the loop. -/
def close (startBuffer : Nat) (s : Loop) : BufferMemory :=
  let h := before s.h headSize
  let freeList := startBuffer
  let heads := Function.update s.heads freeList { s.heads freeList with bPrevFree := h }
  let heads := Function.update heads h { heads h with bNextFree := freeList }
  ⟨heads, s.nrBuffers, freeList, fun _ => 0⟩

/-- `buffer_init` -/
def bufferInit (fuel startBuffer bufferEnd : Nat) (heads : Nat → BufferHead) : Option BufferMemory :=
  (loop fuel ⟨startBuffer, top bufferEnd, heads, 0⟩).map (close startBuffer)

/-- The address of the `i`-th head. -/
def addr (startBuffer i : Nat) : Nat := startBuffer + headSize * i

/-! ## The loop -/

/-- The heads that the loop has made so far, and their data blocks. -/
structure Laid (startBuffer bufferEnd : Nat) (s : Loop) : Prop where
  h_eq : s.h = addr startBuffer s.nrBuffers
  aligned : blockSize ∣ s.b
  pos : 0 < s.b
  b_le : s.b ≤ bufferEnd
  outside : s.b ≤ 0xA0000 ∨ 0x100000 < s.b
  first : s.nrBuffers = 0 → s.b = top bufferEnd
  made : ∀ i < s.nrBuffers, ∃ b old, s.heads (addr startBuffer i) = initHead (addr startBuffer i) b old
  above : ∀ i < s.nrBuffers, s.b ≤ (s.heads (addr startBuffer i)).bData ∧ s.h ≤ (s.heads (addr startBuffer i)).bData
  below : ∀ i < s.nrBuffers, (s.heads (addr startBuffer i)).bData + blockSize ≤ bufferEnd
  hole : ∀ i < s.nrBuffers, (s.heads (addr startBuffer i)).bData + blockSize ≤ 0xA0000 ∨
    0x100000 ≤ (s.heads (addr startBuffer i)).bData
  apart : ∀ i j, i < j → j < s.nrBuffers →
    (s.heads (addr startBuffer j)).bData + blockSize ≤ (s.heads (addr startBuffer i)).bData

variable {startBuffer bufferEnd : Nat} {s : Loop}

theorem addr_inj {i j : Nat} (h : addr startBuffer i = addr startBuffer j) : i = j := by
  unfold addr headSize at h
  omega

theorem addr_succ (i : Nat) : addr startBuffer (i + 1) = addr startBuffer i + headSize := by
  unfold addr headSize
  omega

@[simp] theorem h_body (b : Nat) : (s.body b).h = s.h + headSize := rfl

@[simp] theorem b_body (b : Nat) : (s.body b).b = if b = 0x100000 then 0xA0000 else b := rfl

@[simp] theorem nrBuffers_body (b : Nat) : (s.body b).nrBuffers = s.nrBuffers + 1 := rfl

/-- No pointer wraps around. -/
theorem before_eq {p n : Nat} (hn : n ≤ p) (hp : p < 2 ^ 32) : before p n = p - n := by
  unfold before
  rw [Nat.sub_add_comm hn, Nat.add_mod_right]
  exact Nat.mod_eq_of_lt (by omega)

/-- The block below `b`. -/
theorem Laid.before_b (h : Laid startBuffer bufferEnd s) (hlt : bufferEnd < 2 ^ 32) :
    before s.b blockSize = s.b - blockSize ∧ blockSize ≤ s.b := by
  have hle : blockSize ≤ s.b := Nat.le_of_dvd h.pos h.aligned
  exact ⟨before_eq hle (Nat.lt_of_le_of_lt h.b_le hlt), hle⟩

/-- The heads that are there already stay as they are. -/
theorem heads_body (h : Laid startBuffer bufferEnd s) (b : Nat) {i : Nat} (hi : i < s.nrBuffers) :
    (s.body b).heads (addr startBuffer i) = s.heads (addr startBuffer i) := by
  refine Function.update_of_ne (fun heq => ?_) ..
  rw [h.h_eq] at heq
  exact absurd (addr_inj heq) (Nat.ne_of_lt hi)

theorem heads_body_self (h : Laid startBuffer bufferEnd s) (b : Nat) :
    (s.body b).heads (addr startBuffer s.nrBuffers) = initHead (addr startBuffer s.nrBuffers) b (s.heads s.h) := by
  rw [← h.h_eq]
  exact Function.update_self ..

/-- The loop makes one more head, whose data block is below all the others. -/
theorem Laid.body (h : Laid startBuffer bufferEnd s) (hlt : bufferEnd < 2 ^ 32)
    (hroom : s.h + headSize ≤ before s.b blockSize) :
    Laid startBuffer bufferEnd (s.body (before s.b blockSize)) := by
  obtain ⟨hb, hle⟩ := h.before_b hlt
  rw [hb] at hroom ⊢
  clear hb hlt
  obtain ⟨k, hk⟩ := h.aligned
  have houtside := h.outside
  have hbelow := h.b_le
  have hhead : headSize = 36 := rfl
  have hblock : blockSize = 1024 := rfl
  rw [hblock] at hk
  -- The heads are the old ones and the new one.
  have hsplit : ∀ i < (s.body (s.b - blockSize)).nrBuffers, i < s.nrBuffers ∨ i = s.nrBuffers := by
    intro i hi
    rw [nrBuffers_body] at hi
    omega
  have hdata : ((s.body (s.b - blockSize)).heads (addr startBuffer s.nrBuffers)).bData = s.b - blockSize := by
    rw [heads_body_self h]
    rfl
  constructor
  case h_eq =>
    rw [h_body, nrBuffers_body, addr_succ, h.h_eq]
  case aligned =>
    rw [b_body, hblock]
    split <;> omega
  case pos =>
    rw [b_body]
    split <;> omega
  case b_le =>
    rw [b_body]
    split <;> omega
  case outside =>
    rw [b_body]
    split <;> omega
  case first => exact fun hzero => absurd hzero (Nat.succ_ne_zero _)
  case made =>
    intro i hi
    rcases hsplit i hi with hi | rfl
    · rw [heads_body h _ hi]
      exact h.made i hi
    · exact ⟨_, _, heads_body_self h _⟩
  case above =>
    intro i hi
    rw [b_body, h_body]
    rcases hsplit i hi with hi | rfl
    · rw [heads_body h _ hi]
      have hover := h.above i hi
      split <;> omega
    · rw [hdata]
      split <;> omega
  case below =>
    intro i hi
    rcases hsplit i hi with hi | rfl
    · rw [heads_body h _ hi]
      exact h.below i hi
    · omega
  case hole =>
    intro i hi
    rcases hsplit i hi with hi | rfl
    · rw [heads_body h _ hi]
      exact h.hole i hi
    · omega
  case apart =>
    intro i j hij hj
    rcases hsplit j hj with hj | rfl
    · rw [heads_body h _ hj, heads_body h _ (hij.trans hj)]
      exact h.apart i j hij hj
    · rw [heads_body h _ hij]
      have hover := (h.above i hij).1
      omega

/-- The loop ends. `s₁` is what its last test finds. -/
theorem Laid.loop {fuel : Nat} (h : Laid startBuffer bufferEnd s) (hlt : bufferEnd < 2 ^ 32)
    (hfuel : s.b ≤ blockSize * fuel) : ∃ s₁, Laid startBuffer bufferEnd s₁ ∧
      ¬ s₁.h + headSize ≤ before s₁.b blockSize ∧
      ∀ n, fuel ≤ n → loop n s = some { s₁ with b := before s₁.b blockSize } := by
  induction fuel generalizing s with
  | zero => exact absurd h.pos (Nat.not_lt.mpr hfuel)
  | succ fuel ih =>
    by_cases hroom : s.h + headSize ≤ before s.b blockSize
    · -- Each turn leaves at least a block less below `b`.
      have hbody := h.body hlt hroom
      obtain ⟨hb, hle⟩ := h.before_b hlt
      have hshort : (s.body (before s.b blockSize)).b ≤ blockSize * fuel := by
        rw [Nat.mul_succ] at hfuel
        have hsize : blockSize = 1024 := rfl
        rw [b_body, hb]
        split <;> omega
      obtain ⟨s₁, hlaid, hstop, hloop⟩ := ih hbody hshort
      refine ⟨s₁, hlaid, hstop, fun n hn => ?_⟩
      obtain ⟨n, rfl⟩ : ∃ m, n = m + 1 := ⟨n - 1, by omega⟩
      rw [BufferMemory.loop, if_pos hroom]
      exact hloop n (Nat.le_of_succ_le_succ hn)
    · refine ⟨s, h, hroom, fun n hn => ?_⟩
      obtain ⟨n, rfl⟩ : ∃ m, n = m + 1 := ⟨n - 1, by omega⟩
      rw [BufferMemory.loop, if_neg hroom]

theorem laid_start (hend : 0x100000 ≤ bufferEnd) (haligned : blockSize ∣ bufferEnd) (heads : Nat → BufferHead) :
    Laid startBuffer bufferEnd ⟨startBuffer, top bufferEnd, heads, 0⟩ where
  h_eq := rfl
  aligned := by
    change blockSize ∣ top bufferEnd
    unfold top
    split
    · exact Nat.dvd_mul_left 1024 640
    · exact haligned
  pos := by
    change 0 < top bufferEnd
    unfold top
    split <;> omega
  b_le := by
    change top bufferEnd ≤ bufferEnd
    unfold top
    split <;> omega
  outside := by
    change top bufferEnd ≤ 0xA0000 ∨ 0x100000 < top bufferEnd
    unfold top
    split <;> omega
  first _ := rfl
  made i hi := absurd hi (Nat.not_lt_zero i)
  above i hi := absurd hi (Nat.not_lt_zero i)
  below i hi := absurd hi (Nat.not_lt_zero i)
  hole i hi := absurd hi (Nat.not_lt_zero i)
  apart i j _ hj := absurd hj (Nat.not_lt_zero j)

/-! ## What `buffer_init` leaves -/

/-- `b_next_free` and `b_prev_free`, by the addresses of the heads. -/
def free (m : BufferMemory) : Lib.Links Nat where
  next p := some (m.heads p).bNextFree
  prev p := some (m.heads p).bPrevFree

/-- The address that a link to a buffer holds. -/
def link (startBuffer : Nat) : Option Nat → Nat
  | none => 0
  | some i => addr startBuffer i

/-- The heads, one after the other from `start_buffer` on, are the buffers of `C`. -/
structure Represents (startBuffer : Nat) (m : BufferMemory) (C : BufferCache) : Prop where
  nrBuffers : m.nrBuffers = C.nrBuffers
  freeList : m.freeList = addr startBuffer C.freeList
  hashTable : ∀ i, m.hashTable i = link startBuffer (C.hashTable i)
  block : ∀ i < C.nrBuffers, (m.heads (addr startBuffer i)).bDev = (C.head i).bDev ∧
    (m.heads (addr startBuffer i)).bBlocknr = (C.head i).bBlocknr
  state : ∀ i < C.nrBuffers, (m.heads (addr startBuffer i)).bCount = (C.head i).bCount ∧
    (m.heads (addr startBuffer i)).bDirt = (C.head i).bDirt.toNat ∧
    (m.heads (addr startBuffer i)).bUptodate = (C.head i).bUptodate.toNat ∧
    (m.heads (addr startBuffer i)).bLock = (C.head i).bLock.toNat
  hashed : ∀ i < C.nrBuffers, (m.heads (addr startBuffer i)).bNext = link startBuffer (C.hashed.next i) ∧
    (m.heads (addr startBuffer i)).bPrev = link startBuffer (C.hashed.prev i)
  free : ∀ i < C.nrBuffers, (m.heads (addr startBuffer i)).bNextFree = link startBuffer (C.free.next i) ∧
    (m.heads (addr startBuffer i)).bPrevFree = link startBuffer (C.free.prev i)

/-- Where the heads and the data blocks are. -/
structure Placed (startBuffer bufferEnd : Nat) (m : BufferMemory) : Prop where
  some_head : 1 ≤ m.nrBuffers
  below : ∀ i < m.nrBuffers, (m.heads (addr startBuffer i)).bData + blockSize ≤ bufferEnd
  hole : ∀ i < m.nrBuffers, (m.heads (addr startBuffer i)).bData + blockSize ≤ 640 * 1024 ∨
    1024 * 1024 ≤ (m.heads (addr startBuffer i)).bData
  apart : ∀ i j, i < m.nrBuffers → j < m.nrBuffers → i ≠ j →
    (m.heads (addr startBuffer i)).bData + blockSize ≤ (m.heads (addr startBuffer j)).bData ∨
      (m.heads (addr startBuffer j)).bData + blockSize ≤ (m.heads (addr startBuffer i)).bData
  heads : ∀ i j, i < m.nrBuffers → j < m.nrBuffers →
    addr startBuffer i + headSize ≤ (m.heads (addr startBuffer j)).bData
  start : m.freeList = startBuffer
  ring : Lib.Circular m.free ((List.range m.nrBuffers).map (addr startBuffer))

/-- The free list of the buffers, by their addresses. -/
theorem Represents.ring {m : BufferMemory} {C : BufferCache} {l : List Nat} (h : Represents startBuffer m C)
    (hl : C.FreeList l) : Lib.Circular m.free (l.map (addr startBuffer)) := by
  refine hl.ring.map (addr startBuffer) (fun i hi j hj => ?_) fun i hi j hj => ?_
  · have hnext := (h.free i (hl.mem.mp hi)).1
    rw [hj] at hnext
    exact congrArg some hnext
  · have hprev := (h.free i (hl.mem.mp hi)).2
    rw [hj] at hprev
    exact congrArg some hprev

theorem close_b (b : Nat) : close startBuffer { s with b } = close startBuffer s := rfl

/-- The heads at the end: the first and the last one are linked to each other. -/
theorem Laid.heads_close (h : Laid startBuffer bufferEnd s) (hlt : bufferEnd < 2 ^ 32) {i : Nat}
    (hi : i < s.nrBuffers) : ∃ old, (close startBuffer s).heads (addr startBuffer i) =
      { initHead (addr startBuffer i) (s.heads (addr startBuffer i)).bData old with
        bPrevFree := addr startBuffer (if i = 0 then s.nrBuffers - 1 else i - 1)
        bNextFree := addr startBuffer (if i = s.nrBuffers - 1 then 0 else i + 1) } := by
  obtain ⟨b, old, hold⟩ := h.made i hi
  have hover := h.above i hi
  have hbelow := h.below i hi
  have hsmall : ∀ k, k ≤ s.nrBuffers → addr startBuffer k < 2 ^ 32 := by
    intro k hk
    have hh := h.h_eq
    unfold addr headSize at hh ⊢
    omega
  have hpred : ∀ k, k + 1 ≤ s.nrBuffers → before (addr startBuffer (k + 1)) headSize = addr startBuffer k := by
    intro k hk
    rw [before_eq (by rw [addr_succ]; exact Nat.le_add_left ..) (hsmall _ hk), addr_succ, Nat.add_sub_cancel]
  have hlast : before s.h headSize = addr startBuffer (s.nrBuffers - 1) := by
    obtain ⟨k, hk⟩ : ∃ k, s.nrBuffers = k + 1 := ⟨s.nrBuffers - 1, by omega⟩
    rw [h.h_eq, hk, hpred k (by omega), Nat.add_sub_cancel]
  have hfirst : ∀ k, addr startBuffer k = startBuffer ↔ k = 0 := by
    intro k
    unfold addr headSize
    omega
  have hdata : (s.heads (addr startBuffer i)).bData = b := by
    rw [hold]
    rfl
  have hinner : Function.update s.heads startBuffer { s.heads startBuffer with bPrevFree := before s.h headSize }
      (addr startBuffer i) = { initHead (addr startBuffer i) b old with
        bPrevFree := addr startBuffer (if i = 0 then s.nrBuffers - 1 else i - 1) } := by
    by_cases hi₀ : i = 0
    · have haddr : addr startBuffer i = startBuffer := (hfirst i).mpr hi₀
      rw [haddr] at hold ⊢
      rw [Function.update_self, hold, if_pos hi₀, hlast]
    · rw [Function.update_of_ne fun heq => hi₀ ((hfirst i).mp heq), hold, if_neg hi₀]
      obtain ⟨k, rfl⟩ : ∃ k, i = k + 1 := ⟨i - 1, by omega⟩
      rw [Nat.add_sub_cancel, ← hpred k (by omega)]
      rfl
  refine ⟨old, ?_⟩
  rw [hdata]
  unfold close
  dsimp only
  by_cases hi₁ : i = s.nrBuffers - 1
  · have haddr : before s.h headSize = addr startBuffer i := by
      rw [hlast, hi₁]
    rw [haddr] at hinner ⊢
    rw [Function.update_self, hinner, if_pos hi₁, (hfirst 0).mpr rfl]
  · rw [Function.update_of_ne fun heq => hi₁ (addr_inj (heq.trans hlast)), hinner, if_neg hi₁, addr_succ]
    rfl

/-- The heads are those of an abstract cache that starts. -/
theorem Laid.represents (h : Laid startBuffer bufferEnd s) (hlt : bufferEnd < 2 ^ 32) (hsome : 1 ≤ s.nrBuffers)
    (data : Nat → Nat → UInt8) : Represents startBuffer (close startBuffer s) (BufferCache.bufferInit (s.nrBuffers - 1)
      (fun i => ((close startBuffer s).heads (addr startBuffer i)).bBlocknr) data) := by
  have hn : s.nrBuffers - 1 + 1 = s.nrBuffers := Nat.sub_add_cancel hsome
  have hlen : ∀ i, i < s.nrBuffers - 1 + 1 → i < s.nrBuffers := fun i hi => by omega
  refine ⟨hn.symm, rfl, fun _ => rfl, fun i hi => ?_, fun i hi => ?_, fun i hi => ?_, fun i hi => ?_⟩
  · obtain ⟨old, hold⟩ := h.heads_close hlt (hlen i hi)
    refine ⟨?_, rfl⟩
    rw [hold]
    rfl
  · obtain ⟨old, hold⟩ := h.heads_close hlt (hlen i hi)
    rw [hold]
    exact ⟨rfl, rfl, rfl, rfl⟩
  · obtain ⟨old, hold⟩ := h.heads_close hlt (hlen i hi)
    rw [hold]
    exact ⟨rfl, rfl⟩
  · obtain ⟨old, hold⟩ := h.heads_close hlt (hlen i hi)
    rw [hold]
    exact ⟨rfl, rfl⟩

theorem Laid.placed (h : Laid startBuffer bufferEnd s) (hlt : bufferEnd < 2 ^ 32) (hsome : 1 ≤ s.nrBuffers) :
    Placed startBuffer bufferEnd (close startBuffer s) := by
  have hn : s.nrBuffers - 1 + 1 = s.nrBuffers := Nat.sub_add_cancel hsome
  have hdata : ∀ i < s.nrBuffers, ((close startBuffer s).heads (addr startBuffer i)).bData =
      (s.heads (addr startBuffer i)).bData := by
    intro i hi
    obtain ⟨old, hold⟩ := h.heads_close hlt hi
    rw [hold]
    rfl
  refine ⟨hsome, fun i hi => ?_, fun i hi => ?_, fun i j hi hj hij => ?_, fun i j hi hj => ?_, rfl, ?_⟩
  · rw [hdata i hi]
    exact h.below i hi
  · rw [hdata i hi]
    exact h.hole i hi
  · rw [hdata i hi, hdata j hj]
    rcases Nat.lt_or_gt_of_ne hij with hlt' | hlt'
    · exact .inr (h.apart i j hlt' hj)
    · exact .inl (h.apart j i hlt' hi)
  · -- The heads end where `h` is, and all blocks are above.
    rw [hdata j hj]
    have hover := (h.above j hj).2
    have hh := h.h_eq
    have hi : i < s.nrBuffers := hi
    unfold addr headSize at *
    omega
  · have hring := (h.represents hlt hsome fun _ _ => 0).ring (BufferCache.bufferInit_freeList _ _ _)
    rwa [hn] at hring

/-- `buffer_init` makes at least one head. The heads follow one another from `start_buffer` on, their blocks are
apart from each other, from all heads and from the hole, and the free list goes round through all heads. -/
theorem bufferInit_placed (hroom : startBuffer + headSize + blockSize ≤ top bufferEnd) (hend : 1024 * 1024 ≤ bufferEnd)
    (haligned : blockSize ∣ bufferEnd) (hlt : bufferEnd < 2 ^ 32) (heads : Nat → BufferHead) :
    ∃ m, (∀ fuel, bufferEnd / blockSize ≤ fuel → bufferInit fuel startBuffer bufferEnd heads = some m) ∧
      Placed startBuffer bufferEnd m ∧
      ∀ data, Represents startBuffer m (BufferCache.bufferInit (m.nrBuffers - 1)
        (fun i => (m.heads (addr startBuffer i)).bBlocknr) data) := by
  have hlaid : Laid startBuffer bufferEnd ⟨startBuffer, top bufferEnd, heads, 0⟩ := laid_start hend haligned heads
  have hfuel : top bufferEnd ≤ blockSize * (bufferEnd / blockSize) := by
    rw [Nat.mul_div_cancel' haligned]
    exact hlaid.b_le
  obtain ⟨s, hs, hstop, hloop⟩ := hlaid.loop hlt hfuel
  have hsome : 1 ≤ s.nrBuffers := by
    by_contra hzero
    have hnone : s.nrBuffers = 0 := by omega
    obtain ⟨hb, -⟩ := hs.before_b hlt
    have hh := hs.h_eq
    rw [hb, hs.first hnone, hh, hnone] at hstop
    unfold addr at hstop
    omega
  refine ⟨close startBuffer s, fun fuel hle => ?_, hs.placed hlt hsome, hs.represents hlt hsome⟩
  unfold bufferInit
  rw [hloop fuel hle, Option.map_some, close_b]

/-- A memory of zeros. -/
def zeros : Nat → BufferHead := fun _ => ⟨0, 0, 0, 0, 0, 0, 0, 0, 0, 0, 0, 0⟩

/-- A kernel of about 170 kB, and buffers up to 4 MB. -/
theorem bufferInit_placed_four : ∃ m, (∀ fuel, 4096 ≤ fuel → bufferInit fuel 0x2b018 0x400000 zeros = some m) ∧
    Placed 0x2b018 0x400000 m := by
  have hroom : 0x2b018 + headSize + blockSize ≤ top 0x400000 := by decide
  have haligned : blockSize ∣ 0x400000 := by decide
  obtain ⟨m, hm, hplaced, -⟩ := bufferInit_placed hroom (by decide) haligned (by decide) zeros
  refine ⟨m, fun fuel hle => hm fuel ?_, hplaced⟩
  exact Nat.le_trans (Nat.le_of_eq (by decide)) hle

end BufferMemory

end Linux011.Fs
