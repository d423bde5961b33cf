import Mathlib.Data.List.Perm.Subperm
import Linux011.Fs.BufferHeads
import Linux011.Lib.Doubly

/-!
# The queues of the buffer heads

`remove_from_queues`, `insert_into_queues` and `find_buffer`, over the links that `struct buffer_head` has. A
buffer of a device is in the hash queue of its block, and one of device 0 is in none. `Queued` names the nodes of
each hash queue, and all three functions are described by it.

A buffer that is the only one of its hash queue gets a null `b_next`, and `insert_into_queues` writes
`b_next->b_prev` all the same. That write goes to low memory, and no buffer sees it.
-/

namespace Linux011.Fs

def nrHash : Nat := 307

/-- `_hashfn` -/
def hashfn (dev block : Nat) : Nat := (dev ^^^ block) % nrHash

structure BufferCache where
  nrBuffers : Nat
  head : Nat → Head
  /-- `b_next` and `b_prev` -/
  hashed : Lib.Links Nat
  /-- `b_next_free` and `b_prev_free` -/
  free : Lib.Links Nat
  hashTable : Nat → Option Nat
  freeList : Nat

/-- A block of a device. Device numbers have the 16 bits of `b_dev`, and 0 is none. -/
structure BlockOf where
  dev : Nat
  block : Nat
  dev_ne : dev ≠ 0
  dev_lt : dev < 65536
  deriving DecidableEq

namespace BufferCache

def set (b : Nat) (h : Head) (C : BufferCache) : BufferCache := { C with head := Function.update C.head b h }

/-- `bh->b_dev == dev && bh->b_blocknr == block` -/
def Is (C : BufferCache) (b dev block : Nat) : Prop := (C.head b).bDev = dev ∧ (C.head b).bBlocknr = block

instance (C : BufferCache) (b dev block : Nat) : Decidable (C.Is b dev block) := inferInstanceAs (Decidable (_ ∧ _))

/-- The hash queue that a buffer belongs to. -/
def queueOf (C : BufferCache) (b : Nat) : Nat := hashfn (C.head b).bDev (C.head b).bBlocknr

/-- The first part of `remove_from_queues`. -/
def unhash (b : Nat) (C : BufferCache) : BufferCache :=
  let hashed := C.hashed.unlink b
  { C with
    hashed
    hashTable :=
      if C.hashTable (C.queueOf b) = some b then Function.update C.hashTable (C.queueOf b) (hashed.next b)
      else C.hashTable }

/-- `remove_from_queues`; `none` for its panic. -/
def removeFromQueues (b : Nat) (C : BufferCache) : Option BufferCache :=
  let C := C.unhash b
  match C.free.prev b, C.free.next b with
  | some p, some n =>
    let free := (C.free.setNext (some p) (some n)).setPrev (some n) (some p)
    some { C with free, freeList := if C.freeList = b then n else C.freeList }
  | _, _ => none

/-- The first part of `insert_into_queues`: the end of the free list is behind its last buffer. -/
def putFree (b : Nat) (C : BufferCache) : BufferCache :=
  let last := C.free.prev C.freeList
  let free := (C.free.setNext (some b) (some C.freeList)).setPrev (some b) last
  { C with free := (free.setNext last (some b)).setPrev (some C.freeList) (some b) }

/-- `insert_into_queues` -/
def insertIntoQueues (b : Nat) (C : BufferCache) : BufferCache :=
  let C := C.putFree b
  if (C.head b).bDev = 0 then { C with hashed := (C.hashed.setPrev (some b) none).setNext (some b) none }
  else
    { C with
      hashed := C.hashed.push b (C.hashTable (C.queueOf b))
      hashTable := Function.update C.hashTable (C.queueOf b) (some b) }

/-- The loop of `find_buffer`, for a queue of at most `fuel` buffers. -/
def search (C : BufferCache) (dev block : Nat) : Nat → Option Nat → Option Nat
  | 0, _ => none
  | _ + 1, none => none
  | fuel + 1, some tmp => if C.Is tmp dev block then some tmp else C.search dev block fuel (C.hashed.next tmp)

/-- `find_buffer` -/
def findBuffer (C : BufferCache) (dev block : Nat) : Option Nat :=
  C.search dev block C.nrBuffers (C.hashTable (hashfn dev block))

/-- The end of `getblk`: a buffer gets another block. -/
def reassign (b dev block : Nat) (C : BufferCache) : Option BufferCache :=
  match (C.set b { C.head b with bCount := 1, bDirt := false, bUptodate := false }).removeFromQueues b with
  | none => none
  | some C => some ((C.set b { C.head b with bDev := dev, bBlocknr := block }).insertIntoQueues b)

/-- `buffer_init`, which leaves `b_blocknr` as it finds it, with `n + 1` buffers. -/
def bufferInit (n : Nat) (blocknr : Nat → Nat) (data : Nat → Nat → UInt8) : BufferCache where
  nrBuffers := n + 1
  head b := ⟨0, blocknr b, 0, false, false, false, data b⟩
  hashed := ⟨fun _ => none, fun _ => none⟩
  free := ⟨fun b => some (if b = n then 0 else b + 1), fun b => some (if b = 0 then n else b - 1)⟩
  hashTable _ := none
  freeList := 0

/-! ## The hash queues -/

/-- `q i` lists hash queue `i`. -/
structure Queued (C : BufferCache) (q : Nat → List Nat) : Prop where
  linked : ∀ i, Lib.Doubly C.hashed (q i)
  start : ∀ i, C.hashTable i = (q i).head?
  nodup : ∀ i, (q i).Nodup
  mem : ∀ i b, b ∈ q i ↔ b < C.nrBuffers ∧ (C.head b).bDev ≠ 0 ∧ C.queueOf b = i
  unhashed : ∀ b, (C.head b).bDev = 0 → C.hashed.next b = none ∧ C.hashed.prev b = none

/-- The links of the free list lead to buffers. -/
structure Free (C : BufferCache) : Prop where
  start : C.freeList < C.nrBuffers
  next : ∀ b < C.nrBuffers, ∃ n < C.nrBuffers, C.free.next b = some n
  prev : ∀ b < C.nrBuffers, ∃ p < C.nrBuffers, C.free.prev b = some p

/-- The buffers have different blocks. Device 0 stands for no block. -/
def Distinct (C : BufferCache) : Prop :=
  ∀ a b, a < C.nrBuffers → b < C.nrBuffers → ∀ dev block, dev ≠ 0 → C.Is a dev block → C.Is b dev block → a = b

/-- What every call of `getblk` finds. -/
structure Ok (C : BufferCache) : Prop where
  queued : ∃ q, C.Queued q
  free : C.Free
  distinct : C.Distinct

variable {C : BufferCache} {q : Nat → List Nat} {b dev block : Nat}

@[simp] theorem head_set (h : Head) (a : Nat) : (C.set b h).head a = if a = b then h else C.head a := by
  by_cases ha : a = b
  · rw [ha, if_pos rfl]
    exact Function.update_self ..
  · rw [if_neg ha]
    exact Function.update_of_ne ha ..

/-! ### `find_buffer` -/

theorem search_eq {fuel : Nat} {a : Option Nat} {l : List Nat} (h : Lib.Chain C.hashed.next a l)
    (hfuel : l.length ≤ fuel) : C.search dev block fuel a = l.find? fun b => decide (C.Is b dev block) := by
  induction l generalizing fuel a with
  | nil =>
    rw [Lib.Chain.nil_iff.mp h]
    cases fuel <;> rfl
  | cons b l ih =>
    obtain ⟨rfl, hrest⟩ := h
    obtain ⟨fuel, rfl⟩ : ∃ m, fuel = m + 1 := ⟨fuel - 1, by rw [List.length_cons] at hfuel; omega⟩
    rw [search, List.find?_cons]
    by_cases his : C.Is b dev block
    · rw [if_pos his, decide_eq_true his]
    · rw [if_neg his, decide_eq_false his]
      exact ih hrest (Nat.le_of_succ_le_succ hfuel)

/-- A queue holds each buffer at most once. -/
theorem Queued.length_le (h : C.Queued q) (i : Nat) : (q i).length ≤ C.nrBuffers := by
  have hsub : (q i) ⊆ List.range C.nrBuffers := fun b hb => List.mem_range.mpr ((h.mem i b).mp hb).1
  have hle := ((h.nodup i).subperm hsub).length_le
  rwa [List.length_range] at hle

/-- The loop of `find_buffer` comes to the end of the queue. -/
theorem Queued.findBuffer (h : C.Queued q) :
    C.findBuffer dev block = (q (hashfn dev block)).find? fun b => decide (C.Is b dev block) := by
  unfold BufferCache.findBuffer
  rw [h.start]
  exact search_eq (h.linked _).next (h.length_le _)

theorem Queued.findBuffer_some (h : C.Queued q) (hfind : C.findBuffer dev block = some b) :
    b < C.nrBuffers ∧ C.Is b dev block := by
  rw [h.findBuffer] at hfind
  exact ⟨((h.mem _ b).mp (List.mem_of_find?_eq_some hfind)).1, of_decide_eq_true (List.find?_some hfind :)⟩

theorem Queued.findBuffer_none (h : C.Queued q) (hdev : dev ≠ 0) (hfind : C.findBuffer dev block = none)
    (hb : b < C.nrBuffers) : ¬ C.Is b dev block := by
  rintro ⟨rfl, rfl⟩
  rw [h.findBuffer] at hfind
  have hnot := List.find?_eq_none.mp hfind b ((h.mem _ b).mpr ⟨hb, hdev, rfl⟩)
  exact hnot (decide_eq_true ⟨rfl, rfl⟩)

/-! ### A buffer leaves its queue, and comes to another -/

/-- Only the blocks of the buffers and the links matter. -/
theorem Queued.congr {C' : BufferCache} (h : C.Queued q) (hn : C'.nrBuffers = C.nrBuffers)
    (hdev : ∀ b, (C'.head b).bDev = (C.head b).bDev) (hblock : ∀ b, (C'.head b).bBlocknr = (C.head b).bBlocknr)
    (hhashed : C'.hashed = C.hashed) (htable : C'.hashTable = C.hashTable) : C'.Queued q where
  linked i := hhashed ▸ h.linked i
  start i := htable ▸ h.start i
  nodup := h.nodup
  mem i b := by
    unfold queueOf
    rw [hn, hdev, hblock]
    exact h.mem i b
  unhashed b := by
    rw [hdev, hhashed]
    exact h.unhashed b

/-- What is left of the queues without buffer `b`, whose block no longer counts. -/
structure Without (C : BufferCache) (b : Nat) (q : Nat → List Nat) : Prop where
  linked : ∀ i, Lib.Doubly C.hashed (q i)
  start : ∀ i, C.hashTable i = (q i).head?
  nodup : ∀ i, (q i).Nodup
  mem : ∀ i a, a ∈ q i ↔ a ≠ b ∧ a < C.nrBuffers ∧ (C.head a).bDev ≠ 0 ∧ C.queueOf a = i
  unhashed : ∀ a, a ≠ b → (C.head a).bDev = 0 → C.hashed.next a = none ∧ C.hashed.prev a = none

/-- The links of a buffer that is in no queue lead nowhere, and nothing is unlinked. -/
theorem unlink_alone {L : Lib.Links Nat} (hnext : L.next b = none) (hprev : L.prev b = none) : L.unlink b = L := by
  unfold Lib.Links.unlink
  rw [hnext]
  change L.setNext (L.prev b) (L.next b) = L
  rw [hprev]
  rfl

theorem Queued.queues (h : C.Queued q) : Lib.Queues C.hashed C.hashTable q :=
  ⟨h.linked, h.start, h.nodup, fun i j b hi hj => ((h.mem i b).mp hi).2.2.symm.trans ((h.mem j b).mp hj).2.2⟩

/-- A buffer of no device is in no queue. -/
theorem Queued.unhash_free (h : C.Queued q) (hdev : (C.head b).bDev = 0) : (C.unhash b).Without b q := by
  obtain ⟨hnext, hprev⟩ := h.unhashed b hdev
  have hnot : ∀ i, b ∉ q i := fun i hin => ((h.mem i b).mp hin).2.1 hdev
  have htable : C.hashTable (C.queueOf b) ≠ some b := by
    rw [h.start]
    exact fun heq => hnot _ (List.mem_of_head? heq)
  have hsame : C.unhash b = C := by
    unfold BufferCache.unhash
    dsimp only
    rw [unlink_alone hnext hprev, if_neg htable]
  rw [hsame]
  refine ⟨h.linked, h.start, h.nodup, fun i a => ?_, fun a _ => h.unhashed a⟩
  rw [h.mem]
  exact ⟨fun ha => ⟨fun heq => ha.2.1 (heq ▸ hdev), ha⟩, fun ha => ha.2⟩

theorem Queued.unhash (h : C.Queued q) (hb : b < C.nrBuffers) : ∃ q', (C.unhash b).Without b q' := by
  by_cases hdev : (C.head b).bDev = 0
  · exact ⟨q, h.unhash_free hdev⟩
  · -- The queue of `b` loses `b`, and the others stay as they are.
    have hin : b ∈ q (C.queueOf b) := (h.mem _ b).mpr ⟨hb, hdev, rfl⟩
    obtain ⟨l₁, l₂, hl⟩ := List.append_of_mem hin
    have hleft : Lib.Queues (C.unhash b).hashed (C.unhash b).hashTable
        (Function.update q (C.queueOf b) (l₁ ++ l₂)) := h.queues.unlink hl
    refine ⟨_, hleft.linked, hleft.start, hleft.nodup, fun i a => ?_, fun a hab hadev => ?_⟩
    · rw [Lib.mem_removed hl (h.nodup _) fun i hi => h.queues.apart i _ b hi hin, h.mem, and_comm]
      exact Iff.rfl
    · have hout : a ∉ l₁ ++ b :: l₂ := fun ha => ((h.mem _ a).mp (hl ▸ ha)).2.1 hadev
      have hlinked := h.linked (C.queueOf b)
      rw [hl] at hlinked
      obtain ⟨hnext, hprev⟩ := hlinked.unlink_out hout
      exact ⟨hnext.trans (h.unhashed a hadev).1, hprev.trans (h.unhashed a hadev).2⟩

/-- The block of a buffer that is in no queue may change. -/
theorem Without.set (h : C.Without b q) (n : Head) : (C.set b n).Without b q := by
  refine ⟨h.linked, h.start, h.nodup, fun i a => ?_, fun a hab => ?_⟩
  · rw [h.mem]
    refine and_congr_right fun hab => ?_
    unfold queueOf
    rw [head_set, if_neg hab]
    exact Iff.rfl
  · rw [head_set, if_neg hab]
    exact h.unhashed a hab

theorem Without.queues (h : C.Without b q) : Lib.Queues C.hashed C.hashTable q :=
  ⟨h.linked, h.start, h.nodup,
    fun i j a hi hj => ((h.mem i a).mp hi).2.2.2.symm.trans ((h.mem j a).mp hj).2.2.2⟩

theorem Without.insert (h : C.Without b q) (hb : b < C.nrBuffers) (hdev : (C.head b).bDev ≠ 0) :
    (C.insertIntoQueues b).Queued (Function.update q (C.queueOf b) (b :: q (C.queueOf b))) := by
  have hnot : ∀ i, b ∉ q i := fun i hin => ((h.mem i b).mp hin).1 rfl
  have hfree : C.insertIntoQueues b = { C.putFree b with
      hashed := C.hashed.push b (C.hashTable (C.queueOf b))
      hashTable := Function.update C.hashTable (C.queueOf b) (some b) } := if_neg hdev
  rw [hfree]
  have hadded := h.queues.push (k := C.queueOf b) hnot
  refine ⟨hadded.linked, hadded.start, hadded.nodup, fun i a => ?_, fun a hadev => ?_⟩
  · change _ ↔ a < C.nrBuffers ∧ (C.head a).bDev ≠ 0 ∧ C.queueOf a = i
    rw [Lib.mem_added, h.mem]
    constructor
    · rintro (⟨-, ha⟩ | ⟨rfl, rfl⟩)
      · exact ha
      · exact ⟨hb, hdev, rfl⟩
    · intro ha
      by_cases hab : a = b
      · exact .inr ⟨hab, hab ▸ ha.2.2.symm⟩
      · exact .inl ⟨hab, ha⟩
  · change (C.head a).bDev = 0 at hadev
    have hab : a ≠ b := fun heq => hdev (heq ▸ hadev)
    have hout : a ∉ b :: q (C.queueOf b) := by
      intro ha
      rcases List.mem_cons.mp ha with rfl | ha
      · exact hab rfl
      · exact ((h.mem _ a).mp ha).2.2.1 hadev
    obtain ⟨hnext, hprev⟩ := h.unhashed a hab hadev
    change (C.hashed.push b _).next a = none ∧ (C.hashed.push b _).prev a = none
    rw [h.start]
    obtain ⟨hnext', hprev'⟩ := Lib.Doubly.push_out (L := C.hashed) hout
    exact ⟨hnext'.trans hnext, hprev'.trans hprev⟩

/-- A buffer without a device comes to no queue. -/
theorem Without.insert_none (h : C.Without b q) (hdev : (C.head b).bDev = 0) : (C.insertIntoQueues b).Queued q := by
  have hnot : ∀ i, b ∉ q i := fun i hin => ((h.mem i b).mp hin).1 rfl
  have hinsert : C.insertIntoQueues b =
      { C.putFree b with hashed := (C.hashed.setPrev (some b) none).setNext (some b) none } := if_pos hdev
  have hnext : ∀ a, ((C.hashed.setPrev (some b) none).setNext (some b) none).next a =
      if some b = some a then none else C.hashed.next a := by
    intro a
    rw [Lib.Links.setNext_next, Lib.Links.setPrev_next]
  have hprev : ∀ a, ((C.hashed.setPrev (some b) none).setNext (some b) none).prev a =
      if some b = some a then none else C.hashed.prev a := by
    intro a
    rw [Lib.Links.setNext_prev, Lib.Links.setPrev_prev]
  have hne : ∀ i, ∀ a ∈ q i, some b ≠ some a := fun i a ha heq => hnot i (Option.some.inj heq ▸ ha)
  rw [hinsert]
  refine ⟨fun i => ?_, h.start, h.nodup, fun i a => ?_, fun a hadev => ?_⟩
  · refine (h.linked i).congr (fun a ha => ?_) fun a ha => ?_
    · exact (hnext a).trans (if_neg (hne i a ha))
    · exact (hprev a).trans (if_neg (hne i a ha))
  · change a ∈ q i ↔ a < C.nrBuffers ∧ (C.head a).bDev ≠ 0 ∧ C.queueOf a = i
    rw [h.mem]
    exact ⟨fun ha => ha.2, fun ha => ⟨fun heq => ha.2.1 (heq ▸ hdev), ha⟩⟩
  · change (C.head a).bDev = 0 at hadev
    refine ⟨(hnext a).trans ?_, (hprev a).trans ?_⟩
    · split
      · rfl
      · next hab => exact (h.unhashed a (fun heq => hab (congrArg some heq.symm)) hadev).1
    · split
      · rfl
      · next hab => exact (h.unhashed a (fun heq => hab (congrArg some heq.symm)) hadev).2

/-! ### The free list -/

/-- A link to a buffer is written. -/
theorem Free.setNext (h : C.Free) {o : Option Nat} {n : Nat} (hn : n < C.nrBuffers) :
    { C with free := C.free.setNext o (some n) }.Free := by
  refine ⟨h.start, fun a ha => ?_, fun a ha => ?_⟩
  · change ∃ m < C.nrBuffers, (C.free.setNext o (some n)).next a = some m
    rw [Lib.Links.setNext_next]
    split
    · exact ⟨n, hn, rfl⟩
    · exact h.next a ha
  · change ∃ m < C.nrBuffers, (C.free.setNext o (some n)).prev a = some m
    rw [Lib.Links.setNext_prev]
    exact h.prev a ha

theorem Free.setPrev (h : C.Free) {o : Option Nat} {n : Nat} (hn : n < C.nrBuffers) :
    { C with free := C.free.setPrev o (some n) }.Free := by
  refine ⟨h.start, fun a ha => ?_, fun a ha => ?_⟩
  · change ∃ m < C.nrBuffers, (C.free.setPrev o (some n)).next a = some m
    rw [Lib.Links.setPrev_next]
    exact h.next a ha
  · change ∃ m < C.nrBuffers, (C.free.setPrev o (some n)).prev a = some m
    rw [Lib.Links.setPrev_prev]
    split
    · exact ⟨n, hn, rfl⟩
    · exact h.prev a ha

/-- The rest of the cache does not matter. -/
theorem Free.congr {C' : BufferCache} (h : C.Free) (hn : C'.nrBuffers = C.nrBuffers) (hfree : C'.free = C.free)
    (hlist : C'.freeList = C.freeList) : C'.Free := by
  refine ⟨?_, ?_, ?_⟩
  · rw [hn, hlist]
    exact h.start
  · rw [hn, hfree]
    exact h.next
  · rw [hn, hfree]
    exact h.prev

theorem Free.put (h : C.Free) (hb : b < C.nrBuffers) : (C.putFree b).Free := by
  obtain ⟨p, hp, hprev⟩ := h.prev C.freeList h.start
  have h₁ := h.setNext (o := some b) h.start
  have h₂ := h₁.setPrev (o := some b) hp
  have h₃ := h₂.setNext (o := some p) hb
  have h₄ := h₃.setPrev (o := some C.freeList) hb
  refine h₄.congr rfl ?_ rfl
  unfold putFree
  rw [hprev]

/-- `remove_from_queues` does not panic. -/
theorem Free.remove (h : C.Free) (hb : b < C.nrBuffers) : ∃ C', C.removeFromQueues b = some C' ∧ C'.Free ∧
    C'.head = C.head ∧ C'.nrBuffers = C.nrBuffers ∧ C'.hashed = (C.unhash b).hashed ∧
    C'.hashTable = (C.unhash b).hashTable := by
  obtain ⟨p, hp, hprev⟩ := h.prev b hb
  obtain ⟨n, hn, hnext⟩ := h.next b hb
  refine ⟨{ C.unhash b with
    free := (C.free.setNext (some p) (some n)).setPrev (some n) (some p)
    freeList := if C.freeList = b then n else C.freeList }, ?_, ?_, rfl, rfl, rfl, rfl⟩
  · have hprev' : (C.unhash b).free.prev b = some p := hprev
    have hnext' : (C.unhash b).free.next b = some n := hnext
    unfold removeFromQueues
    dsimp only
    rw [hprev', hnext']
    rfl
  · have hlinks := (h.setNext (o := some p) hn).setPrev (o := some n) hp
    refine ⟨?_, hlinks.next, hlinks.prev⟩
    change (if C.freeList = b then n else C.freeList) < C.nrBuffers
    split
    · exact hn
    · exact h.start

/-! ### A buffer gets another block -/

/-- `getblk` when the buffer is in no queue and has its new block. -/
def unlist (b dev block : Nat) (C : BufferCache) : Option BufferCache :=
  ((C.set b { C.head b with bCount := 1, bDirt := false, bUptodate := false }).removeFromQueues b).map fun C =>
    C.set b { C.head b with bDev := dev, bBlocknr := block }

theorem reassign_eq : C.reassign b dev block = (C.unlist b dev block).map (insertIntoQueues b) := by
  unfold BufferCache.reassign unlist
  cases (C.set b { C.head b with bCount := 1, bDirt := false, bUptodate := false }).removeFromQueues b <;> rfl

theorem nrBuffers_insert : (C.insertIntoQueues b).nrBuffers = C.nrBuffers := by
  unfold insertIntoQueues
  dsimp only
  split <;> rfl

theorem head_insert : (C.insertIntoQueues b).head = C.head := by
  unfold insertIntoQueues
  dsimp only
  split <;> rfl

theorem Free.insert (h : C.Free) (hb : b < C.nrBuffers) : (C.insertIntoQueues b).Free := by
  unfold insertIntoQueues
  dsimp only
  split
  · exact (h.put hb).congr rfl rfl rfl
  · exact (h.put hb).congr rfl rfl rfl

/-- What `getblk` makes of a buffer. -/
structure Reassigned (C : BufferCache) (b dev block : Nat) (C' : BufferCache) : Prop where
  nrBuffers : C'.nrBuffers = C.nrBuffers
  head : ∀ a, C'.head a = if a = b then
    { C.head b with bDev := dev, bBlocknr := block, bCount := 1, bDirt := false, bUptodate := false } else C.head a

/-- A buffer leaves its queue, and has another block. -/
theorem Queued.unlist (h : C.Queued q) (hfree : C.Free) (hb : b < C.nrBuffers) (dev block : Nat) : ∃ C' q',
    C.unlist b dev block = some C' ∧ C'.Without b q' ∧ C'.Free ∧ C.Reassigned b dev block C' := by
  let C₁ := C.set b { C.head b with bCount := 1, bDirt := false, bUptodate := false }
  have hdevs : ∀ a, (C₁.head a).bDev = (C.head a).bDev := by
    intro a
    rw [head_set]
    split
    · next heq => rw [heq]
    · rfl
  have hblocks : ∀ a, (C₁.head a).bBlocknr = (C.head a).bBlocknr := by
    intro a
    rw [head_set]
    split
    · next heq => rw [heq]
    · rfl
  have hq₁ : C₁.Queued q := h.congr rfl hdevs hblocks rfl rfl
  obtain ⟨q', hwithout⟩ := hq₁.unhash hb
  obtain ⟨C₂, hremove, hfree₂, hhead₂, hn₂, hhashed₂, htable₂⟩ := Free.remove (C := C₁) (hfree.congr rfl rfl rfl) hb
  have hwithout₂ : C₂.Without b q' := by
    refine ⟨fun i => hhashed₂ ▸ hwithout.linked i, fun i => htable₂ ▸ hwithout.start i, hwithout.nodup,
      fun i a => ?_, fun a => ?_⟩
    · unfold queueOf
      rw [hn₂, hhead₂]
      exact hwithout.mem i a
    · rw [hhead₂, hhashed₂]
      exact hwithout.unhashed a
  refine ⟨C₂.set b { C₂.head b with bDev := dev, bBlocknr := block }, q', ?_, hwithout₂.set _,
    hfree₂.congr rfl rfl rfl, hn₂, fun a => ?_⟩
  · unfold BufferCache.unlist
    rw [hremove]
    rfl
  · rw [head_set, hhead₂, head_set, head_set, if_pos rfl]
    split <;> rfl

theorem Reassigned.head_self {C' : BufferCache} (h : C.Reassigned b dev block C') :
    (C'.head b).bDev = dev ∧ (C'.head b).bBlocknr = block := by
  rw [h.head, if_pos rfl]
  exact ⟨rfl, rfl⟩

theorem Reassigned.insert {C' : BufferCache} (h : C.Reassigned b dev block C') :
    C.Reassigned b dev block (C'.insertIntoQueues b) where
  nrBuffers := nrBuffers_insert.trans h.nrBuffers
  head a := by
    rw [head_insert]
    exact h.head a

theorem Ok.reassign (h : C.Ok) (hb : b < C.nrBuffers) (hdev : dev ≠ 0) (hfind : C.findBuffer dev block = none) :
    ∃ C', C.reassign b dev block = some C' ∧ C'.Ok ∧ C.Reassigned b dev block C' := by
  obtain ⟨q, hq⟩ := h.queued
  obtain ⟨C₃, q', hunlist, hwithout, hfree, hunlisted⟩ := hq.unlist h.free hb dev block
  have hb₃ : b < C₃.nrBuffers := hunlisted.nrBuffers ▸ hb
  have hqueued := hwithout.insert hb₃ (by rw [hunlisted.head_self.1]; exact hdev)
  have hre : C.Reassigned b dev block (C₃.insertIntoQueues b) := hunlisted.insert
  refine ⟨C₃.insertIntoQueues b, ?_, ⟨⟨_, hqueued⟩, hfree.insert hb₃, ?_⟩, hre⟩
  · rw [reassign_eq, hunlist]
    rfl
  · intro x y hx hy d k hd hxk hyk
    rw [hre.nrBuffers] at hx hy
    have hold : ∀ a, a < C.nrBuffers → (C₃.insertIntoQueues b).Is a d k →
        a = b ∧ dev = d ∧ block = k ∨ a ≠ b ∧ C.Is a d k := by
      intro a ha hak
      unfold Is at hak ⊢
      rw [hre.head] at hak
      by_cases hab : a = b
      · rw [if_pos hab] at hak
        exact .inl ⟨hab, hak⟩
      · rw [if_neg hab] at hak
        exact .inr ⟨hab, hak⟩
    -- No other buffer has the block that `b` gets.
    rcases hold x hx hxk with ⟨rfl, rfl, rfl⟩ | ⟨hxb, hxold⟩
    · rcases hold y hy hyk with ⟨rfl, -⟩ | ⟨-, hyold⟩
      · rfl
      · exact absurd hyold (hq.findBuffer_none hd hfind hy)
    · rcases hold y hy hyk with ⟨rfl, rfl, rfl⟩ | ⟨-, hyold⟩
      · exact absurd hxold (hq.findBuffer_none hd hfind hx)
      · exact h.distinct x y hx hy d k hd hxold hyold

/-- The links, and which buffer has which block, are all that matters. -/
theorem Ok.congr {C' : BufferCache} (h : C.Ok) (hn : C'.nrBuffers = C.nrBuffers)
    (hdev : ∀ b, (C'.head b).bDev = (C.head b).bDev) (hblock : ∀ b, (C'.head b).bBlocknr = (C.head b).bBlocknr)
    (hhashed : C'.hashed = C.hashed) (htable : C'.hashTable = C.hashTable) (hfree : C'.free = C.free)
    (hlist : C'.freeList = C.freeList) : C'.Ok where
  queued := h.queued.imp fun _ hq => hq.congr hn hdev hblock hhashed htable
  free := h.free.congr hn hfree hlist
  distinct x y hx hy d k hd hxk hyk := by
    unfold Is at hxk hyk
    rw [hn] at hx hy
    rw [hdev, hblock] at hxk hyk
    exact h.distinct x y hx hy d k hd hxk hyk

theorem bufferInit_ok (n : Nat) (blocknr : Nat → Nat) (data : Nat → Nat → UInt8) : (bufferInit n blocknr data).Ok where
  queued := by
    refine ⟨fun _ => [], fun _ => ⟨rfl, rfl⟩, fun _ => rfl, fun _ => List.nodup_nil, fun i b => ?_,
      fun _ _ => ⟨rfl, rfl⟩⟩
    exact ⟨fun hin => absurd hin List.not_mem_nil, fun h => absurd rfl h.2.1⟩
  free := by
    refine ⟨Nat.succ_pos n, fun b hb => ⟨_, ?_, rfl⟩, fun b hb => ⟨_, ?_, rfl⟩⟩
    · change b < n + 1 at hb
      change (if b = n then 0 else b + 1) < n + 1
      split <;> omega
    · change b < n + 1 at hb
      change (if b = 0 then n else b - 1) < n + 1
      split <;> omega
  distinct _ _ _ _ _ _ hd hx _ := absurd hx.1.symm hd

end BufferCache

end Linux011.Fs
