import Linux011.Fs.BufferCalls
import Linux011.Lib.Circular

/-!
# The lists of every buffer

However often `getblk` gives a buffer another block, every buffer is on the free list once, and in the hash queue of
its block once if it has a device. The buffer that has got a block is at the end of the free list.

`storeReassign` is `reassign` where a store through a null link counts. `insert_into_queues` makes one whenever the
buffer is the only one of its hash queue.
-/

namespace Linux011.Fs

namespace BufferCache

/-- `l` is the free list from `free_list` on. -/
structure FreeList (C : BufferCache) (l : List Nat) : Prop where
  ring : Lib.Circular C.free l
  start : l.head? = some C.freeList
  perm : l.Perm (List.range C.nrBuffers)

/-- A buffer gets another block, or the blocks and the queues stay as they are. -/
inductive Turn (C : BufferCache) : BufferCache → Prop
  | calm {C' : BufferCache} (h : C.Calm C') : Turn C C'
  | reassign {C' : BufferCache} (b dev block : Nat) (hb : b < C.nrBuffers) (h : C.reassign b dev block = some C') :
      Turn C C'

/-! ## Stores through the links -/

/-- The first part of `remove_from_queues`; `none` for a store through a null link. -/
def storeUnhash (b : Nat) (C : BufferCache) : Option BufferCache := do
  let hashed ← if (C.hashed.next b).isSome then C.hashed.storePrev (C.hashed.next b) (C.hashed.prev b)
    else some C.hashed
  let hashed ← if (hashed.prev b).isSome then hashed.storeNext (hashed.prev b) (hashed.next b) else some hashed
  some { C with
    hashed
    hashTable :=
      if C.hashTable (C.queueOf b) = some b then Function.update C.hashTable (C.queueOf b) (hashed.next b)
      else C.hashTable }

/-- `remove_from_queues`; `none` for its panic or a store through a null link. -/
def storeRemove (b : Nat) (C : BufferCache) : Option BufferCache := do
  let C ← C.storeUnhash b
  let prev ← C.free.prev b
  let next ← C.free.next b
  let free ← C.free.storeNext (some prev) (some next)
  let free ← free.storePrev (some next) (some prev)
  some { C with free, freeList := if C.freeList = b then next else C.freeList }

/-- `insert_into_queues`; `none` for a store through a null link. -/
def storeInsert (b : Nat) (C : BufferCache) : Option BufferCache := do
  let free ← C.free.storeNext (some b) (some C.freeList)
  let free ← free.storePrev (some b) (free.prev C.freeList)
  let free ← free.storeNext (free.prev C.freeList) (some b)
  let free ← free.storePrev (some C.freeList) (some b)
  let hashed ← C.hashed.storePrev (some b) none
  let hashed ← hashed.storeNext (some b) none
  if (C.head b).bDev = 0 then some { C with free, hashed }
  else
    let hashed ← hashed.storeNext (some b) (C.hashTable (C.queueOf b))
    let hashed ← hashed.storePrev (hashed.next b) (some b)
    some { C with free, hashed, hashTable := Function.update C.hashTable (C.queueOf b) (some b) }

/-- The end of `getblk`; `none` for a panic or a store through a null link. -/
def storeReassign (b dev block : Nat) (C : BufferCache) : Option BufferCache := do
  let C ← (C.set b { C.head b with bCount := 1, bDirt := false, bUptodate := false }).storeRemove b
  (C.set b { C.head b with bDev := dev, bBlocknr := block }).storeInsert b

variable {C C' : BufferCache} {q : Nat → List Nat} {l : List Nat} {b dev block : Nat}

/-! ## The free list -/

theorem FreeList.mem (h : C.FreeList l) : b ∈ l ↔ b < C.nrBuffers := by
  rw [h.perm.mem_iff, List.mem_range]

theorem FreeList.nodup (h : C.FreeList l) : l.Nodup := h.perm.nodup_iff.mpr List.nodup_range

theorem FreeList.free (h : C.FreeList l) : C.Free where
  start := h.mem.mp (List.mem_of_head? h.start)
  next b hb := by
    obtain ⟨n, hn, hnext⟩ := h.ring.next_mem (h.mem.mpr hb)
    exact ⟨n, h.mem.mp hn, hnext⟩
  prev b hb := by
    obtain ⟨p, hp, hprev⟩ := h.ring.prev_mem (h.mem.mpr hb)
    exact ⟨p, h.mem.mp hp, hprev⟩

theorem FreeList.congr (h : C.FreeList l) (hn : C'.nrBuffers = C.nrBuffers) (hfree : C'.free = C.free)
    (hlist : C'.freeList = C.freeList) : C'.FreeList l := by
  refine ⟨?_, ?_, ?_⟩
  · rw [hfree]
    exact h.ring
  · rw [hlist]
    exact h.start
  · rw [hn]
    exact h.perm

/-- What `remove_from_queues` does to the free list. -/
theorem free_remove (h : C.removeFromQueues b = some C') : C'.free = C.free.unlink b ∧
    C'.nrBuffers = C.nrBuffers ∧ (C.freeList ≠ b → C'.freeList = C.freeList) ∧
    (C.freeList = b → C.free.next b = some C'.freeList) := by
  unfold removeFromQueues at h
  dsimp only at h
  split at h
  · next p n hprev hnext =>
    cases h
    have hprev' : C.free.prev b = some p := hprev
    have hnext' : C.free.next b = some n := hnext
    refine ⟨?_, rfl, fun hne => if_neg hne, fun heq => ?_⟩
    · rw [Lib.Links.unlink_eq, hprev', hnext']
      rfl
    · rw [hnext']
      exact congrArg some (if_pos heq).symm
  · cases h

/-- What `insert_into_queues` does to the free list. -/
theorem free_insert : (C.insertIntoQueues b).free = C.free.linkBefore b C.freeList ∧
    (C.insertIntoQueues b).freeList = C.freeList := by
  unfold insertIntoQueues
  dsimp only
  split <;> exact ⟨rfl, rfl⟩

theorem erase_middle {l₁ l₂ : List Nat} (h : (l₁ ++ b :: l₂).Nodup) : (l₁ ++ b :: l₂).erase b = l₁ ++ l₂ := by
  have hb : b ∉ l₁ := fun hb => (List.nodup_append.mp h).2.2 b hb b List.mem_cons_self rfl
  rw [List.erase_append_right _ hb, List.erase_cons_head]

/-- A buffer comes to the end of the free list. -/
theorem FreeList.remove_insert (h : C.FreeList l) (hb : b < C.nrBuffers) (hremove : C.removeFromQueues b = some C') :
    Lib.Circular (C'.free.linkBefore b C'.freeList) (l.erase b ++ [b]) ∧
      (l.erase b ++ [b]).head? = some C'.freeList := by
  obtain ⟨hfree, -, hother, hsame⟩ := free_remove hremove
  obtain ⟨l₁, l₂, rfl⟩ := List.append_of_mem (h.mem.mpr hb)
  have hring := h.ring
  have hstart := h.start
  have hnodup := h.nodup
  rw [erase_middle hnodup, hfree]
  cases hrest : l₁ ++ l₂ with
  | nil =>
    -- `b` is the only buffer, and goes on being linked to itself.
    obtain ⟨rfl, rfl⟩ := List.append_eq_nil_iff.mp hrest
    have hlinks := hring.closed b b rfl rfl
    have hnext := hsame (Option.some.inj hstart).symm
    have hlist : C'.freeList = b := Option.some.inj (hnext.symm.trans hlinks.1)
    rw [hlist]
    refine ⟨Lib.Circular.linkBefore_self ?_, rfl⟩
    rw [Lib.Links.unlink_prev, if_pos hlinks.1]
    exact hlinks.2
  | cons f m =>
    have hunlinked := hring.unlink hnodup (by rw [hrest]; exact List.cons_ne_nil f m)
    have hshort : b ∉ l₁ ++ l₂ ∧ (l₁ ++ l₂).Nodup := List.nodup_cons.mp (List.nodup_middle.mp hnodup)
    have hlist : C'.freeList = f := by
      cases l₁ with
      | nil =>
        have hnext := hsame (Option.some.inj hstart).symm
        have hl₂ : l₂ = f :: m := hrest
        rw [List.nil_append, hl₂] at hring
        exact Option.some.inj (hnext.symm.trans (hring.next_first (List.cons_ne_nil f m)))
      | cons a l₁ =>
        obtain rfl : a = f := (List.cons.inj hrest).1
        obtain rfl : a = C.freeList := Option.some.inj hstart
        exact hother fun heq => hshort.1 (heq ▸ List.mem_cons_self)
    rw [hrest] at hunlinked hshort
    rw [hlist]
    exact ⟨hunlinked.linkBefore hshort.2 hshort.1, rfl⟩

/-- The buffer that gets another block comes to the end of the free list. -/
theorem FreeList.reassign (h : C.FreeList l) (hb : b < C.nrBuffers) (hre : C.reassign b dev block = some C') :
    C'.FreeList (l.erase b ++ [b]) := by
  let C₁ := C.set b { C.head b with bCount := 1, bDirt := false, bUptodate := false }
  have h₁ : C₁.FreeList l := h.congr rfl rfl rfl
  obtain ⟨C₂, hremove, -⟩ := Free.remove h₁.free hb
  obtain ⟨hring, hhead⟩ := h₁.remove_insert hb hremove
  have hC' : (C₂.set b { C₂.head b with bDev := dev, bBlocknr := block }).insertIntoQueues b = C' := by
    unfold BufferCache.reassign at hre
    rw [hremove] at hre
    exact Option.some.inj hre
  subst hC'
  obtain ⟨hfree, hlist⟩ := free_insert (C := C₂.set b { C₂.head b with bDev := dev, bBlocknr := block }) (b := b)
  refine ⟨?_, ?_, ?_⟩
  · rw [hfree]
    exact hring
  · rw [hlist]
    exact hhead
  · rw [nrBuffers_insert]
    have hn : C₂.nrBuffers = C.nrBuffers := (free_remove hremove).2.1
    have hback : (l.erase b ++ [b]).Perm l :=
      List.perm_append_comm.trans (List.perm_cons_erase (h.mem.mpr hb)).symm
    change (l.erase b ++ [b]).Perm (List.range C₂.nrBuffers)
    rw [hn]
    exact hback.trans h.perm

/-- `buffer_init` links the buffers in the order of their addresses. -/
theorem bufferInit_freeList (n : Nat) (blocknr : Nat → Nat) (data : Nat → Nat → UInt8) :
    (bufferInit n blocknr data).FreeList (List.range (n + 1)) where
  ring := by
    refine ⟨List.isChain_iff_getElem.mpr fun i hi => ?_, fun p f hp hf => ?_⟩
    · rw [List.length_range] at hi
      rw [List.getElem_range, List.getElem_range]
      refine ⟨congrArg some (if_neg (by omega)), congrArg some ?_⟩
      rw [if_neg (Nat.succ_ne_zero i)]
      rfl
    · rw [List.getLast?_range] at hp
      rw [List.head?_range] at hf
      cases hp
      cases hf
      exact ⟨congrArg some (if_pos rfl), congrArg some (if_pos rfl)⟩
  start := List.head?_range
  perm := .refl _

/-! ## Every sequence of re-assignments -/

/-- A buffer gets another block, of any device or of none. -/
theorem Queued.reassign (h : C.Queued q) (hfree : C.Free) (hb : b < C.nrBuffers) (dev block : Nat) :
    ∃ C' q', C.reassign b dev block = some C' ∧ C'.Queued q' := by
  obtain ⟨C₁, q', hunlist, hwithout, -, hre⟩ := h.unlist hfree hb dev block
  have hwhole : C.reassign b dev block = some (C₁.insertIntoQueues b) := by
    rw [reassign_eq, hunlist]
    rfl
  by_cases hdev : dev = 0
  · exact ⟨_, q', hwhole, hwithout.insert_none (hre.head_self.1.trans hdev)⟩
  · refine ⟨_, _, hwhole, hwithout.insert (hre.nrBuffers ▸ hb) ?_⟩
    rw [hre.head_self.1]
    exact hdev

theorem Turn.listed (h : C.Turn C') (hlists : ∃ q l, C.Queued q ∧ C.FreeList l) :
    ∃ q l, C'.Queued q ∧ C'.FreeList l := by
  obtain ⟨q, l, hq, hl⟩ := hlists
  cases h with
  | calm h =>
    exact ⟨q, l, hq.congr h.nrBuffers h.dev h.block h.hashed h.hashTable, hl.congr h.nrBuffers h.free h.freeList⟩
  | reassign b dev block hb h =>
    obtain ⟨C₁, q', hre, hq'⟩ := hq.reassign hl.free hb dev block
    obtain rfl : C₁ = C' := Option.some.inj (hre.symm.trans h)
    exact ⟨q', _, hq', hl.reassign hb h⟩

theorem run_listed {n : Nat} {blocknr : Nat → Nat} {data : Nat → Nat → UInt8}
    (hrun : Relation.ReflTransGen Turn (bufferInit n blocknr data) C) : ∃ q l, C.Queued q ∧ C.FreeList l := by
  refine Lib.invariant_of_run (I := fun C : BufferCache => ∃ q l, C.Queued q ∧ C.FreeList l)
    (fun _ _ hlists hturn => hturn.listed hlists) ?_ hrun
  obtain ⟨q, hq⟩ := (bufferInit_ok n blocknr data).queued
  exact ⟨q, _, hq, bufferInit_freeList n blocknr data⟩

/-- The first buffer of a queue has none before it. -/
theorem Queued.prev_first (h : C.Queued q) {i : Nat} (hb : C.hashTable i = some b) : C.hashed.prev b = none := by
  rw [h.start] at hb
  obtain ⟨m, hm⟩ := List.head?_eq_some_iff.mp hb
  have hlinked : Lib.Doubly C.hashed ([] ++ b :: m) := hm ▸ h.linked i
  exact hlinked.prev_eq

theorem Queued.count (h : C.Queued q) (hb : b < C.nrBuffers) (i : Nat) :
    (q i).count b = if (C.head b).bDev ≠ 0 ∧ C.queueOf b = i then 1 else 0 := by
  rw [List.Nodup.count (h.nodup i)]
  refine if_congr ?_ rfl rfl
  rw [h.mem]
  exact ⟨fun hin => hin.2, fun hin => ⟨hb, hin⟩⟩

/-- After every sequence of re-assignments, each buffer is on the free list once, it is in the queue of its block
once and in no other one, or in none if it has no device, and a buffer that gets another block is the last one of
the free list. -/
theorem buffers_listed {n : Nat} {blocknr : Nat → Nat} {data : Nat → Nat → UInt8}
    (hrun : Relation.ReflTransGen Turn (bufferInit n blocknr data) C) : ∃ q l, C.Queued q ∧ C.FreeList l ∧
      (∀ i b, C.hashTable i = some b → C.hashed.prev b = none) ∧
      ∀ b < C.nrBuffers, l.count b = 1 ∧
        (∀ i, (q i).count b = if (C.head b).bDev ≠ 0 ∧ C.queueOf b = i then 1 else 0) ∧
        ∀ dev block, ∃ C', C.reassign b dev block = some C' ∧ C'.FreeList (l.erase b ++ [b]) := by
  obtain ⟨q, l, hq, hl⟩ := run_listed hrun
  refine ⟨q, l, hq, hl, fun i b => hq.prev_first, fun b hb => ⟨?_, hq.count hb, fun dev block => ?_⟩⟩
  · exact List.count_eq_one_of_mem hl.nodup (hl.mem.mpr hb)
  · obtain ⟨C', -, hre, -⟩ := hq.reassign hl.free hb dev block
    exact ⟨C', hre, hl.reassign hb hre⟩

/-- Two buffers that get two blocks, both of the same hash queue. -/
def twoBlocks : BufferCache := bufferInit 1 (fun _ => 0) fun _ _ => 0

def sameQueue : Nat := 0x301 ^^^ (hashfn 0x301 0 + nrHash)

theorem reassign_run {n : Nat} {blocknr : Nat → Nat} {data : Nat → Nat → UInt8}
    (hrun : Relation.ReflTransGen Turn (bufferInit n blocknr data) C) (hb : b < C.nrBuffers) (dev block : Nat) :
    ∃ C', C.reassign b dev block = some C' ∧ Relation.ReflTransGen Turn (bufferInit n blocknr data) C' := by
  obtain ⟨q, l, hq, hl⟩ := run_listed hrun
  obtain ⟨C', -, hre, -⟩ := hq.reassign hl.free hb dev block
  exact ⟨C', hre, hrun.tail (.reassign b dev block hb hre)⟩

/-- One of two buffers has got a block. -/
theorem buffers_listed_two : ∃ C q l, (twoBlocks.reassign 0 0x301 0) = some C ∧ C.Queued q ∧ C.FreeList l ∧
    ∃ C', C.reassign 1 0x301 sameQueue = some C' ∧ C'.FreeList (l.erase 1 ++ [1]) := by
  obtain ⟨C, hre, hrun⟩ := reassign_run (.refl (a := twoBlocks)) (b := 0) (Nat.zero_lt_succ 1) 0x301 0
  obtain ⟨q, l, hq, hl, -, hall⟩ := buffers_listed hrun
  have hlt : 1 < C.nrBuffers := by
    cases hre
    exact Nat.lt_succ_self 1
  obtain ⟨-, -, hnext⟩ := hall 1 hlt
  exact ⟨C, q, l, hre, hq, hl, hnext 0x301 sameQueue⟩

/-! ## Where a store goes through a null link -/

/-- `remove_from_queues` looks at both hash links. -/
theorem storeUnhash_eq : C.storeUnhash b = some (C.unhash b) := by
  unfold storeUnhash BufferCache.unhash Lib.Links.unlink
  cases hnext : C.hashed.next b with
  | none =>
    cases hprev : C.hashed.prev b with
    | none => simp [hnext, hprev, Lib.Links.setNext, Lib.Links.setPrev]
    | some p => simp [hnext, hprev, Lib.Links.setPrev]
  | some n =>
    cases hprev : (C.hashed.setPrev (some n) (C.hashed.prev b)).prev b with
    | none => simp [hnext, hprev, Lib.Links.setNext]
    | some p => simp [hnext, hprev]

theorem storeRemove_eq : C.storeRemove b = C.removeFromQueues b := by
  unfold storeRemove removeFromQueues
  rw [storeUnhash_eq]
  cases hprev : (C.unhash b).free.prev b with
  | none => simp [hprev]
  | some p =>
    cases hnext : (C.unhash b).free.next b with
    | none => simp [hprev, hnext]
    | some n => simp [hprev, hnext]

/-- `insert_into_queues` writes through `b_next`, which is the buffer that was the first one of the queue. -/
theorem storeInsert_eq (hfree : C.Free) (hdev : (C.head b).bDev ≠ 0) :
    C.storeInsert b = (C.hashTable (C.queueOf b)).map fun _ => C.insertIntoQueues b := by
  obtain ⟨p, -, hprev⟩ := hfree.prev C.freeList hfree.start
  unfold storeInsert insertIntoQueues putFree Lib.Links.push queueOf
  cases hfirst : C.hashTable (hashfn (C.head b).bDev (C.head b).bBlocknr) with
  | none => simp [hdev, hprev, Lib.Links.setNext_next]
  | some a => simp [hdev, hprev, hfirst, Lib.Links.setNext_next, Lib.Links.setPrev_prev]

/-- Another buffer is in the hash queue of the block. -/
def Shared (C : BufferCache) (b dev block : Nat) : Prop :=
  ∃ a < C.nrBuffers, a ≠ b ∧ (C.head a).bDev ≠ 0 ∧ C.queueOf a = hashfn dev block

theorem Queued.storeReassign (h : C.Queued q) (hfree : C.Free) (hb : b < C.nrBuffers) (hdev : dev ≠ 0) (block : Nat) :
    ∃ C', ∃ first : Option Nat, C.reassign b dev block = some C' ∧
      C.storeReassign b dev block = first.map (fun _ => C') ∧ (first.isSome ↔ C.Shared b dev block) := by
  obtain ⟨C₁, q', hunlist, hwithout, hfree₁, hre⟩ := h.unlist hfree hb dev block
  have hqueue : C₁.queueOf b = hashfn dev block := by
    unfold queueOf
    rw [hre.head_self.1, hre.head_self.2]
  refine ⟨C₁.insertIntoQueues b, C₁.hashTable (hashfn dev block), ?_, ?_, ?_⟩
  · rw [reassign_eq, hunlist]
    rfl
  · have hstore : C.storeReassign b dev block = (C.unlist b dev block).bind (storeInsert b) := by
      unfold BufferCache.storeReassign BufferCache.unlist
      rw [storeRemove_eq]
      cases (C.set b { C.head b with bCount := 1, bDirt := false, bUptodate := false }).removeFromQueues b <;> rfl
    rw [hstore, hunlist, ← hqueue]
    exact storeInsert_eq hfree₁ (by rw [hre.head_self.1]; exact hdev)
  · -- The other buffers have the blocks that they had.
    have hother : ∀ a, a ≠ b → C₁.head a = C.head a := fun a hab => (hre.head a).trans (if_neg hab)
    rw [hwithout.start, List.isSome_head?, ne_eq, ← List.isEmpty_iff, Bool.not_eq_true,
      List.isEmpty_eq_false_iff_exists_mem]
    unfold Shared
    refine exists_congr fun a => ?_
    rw [hwithout.mem]
    unfold queueOf
    rw [hre.nrBuffers]
    constructor
    · rintro ⟨hab, ha, hadev, haqueue⟩
      rw [hother a hab] at hadev haqueue
      exact ⟨ha, hab, hadev, haqueue⟩
    · rintro ⟨ha, hab, hadev, haqueue⟩
      rw [hother a hab]
      exact ⟨hab, ha, hadev, haqueue⟩

/-- No store goes through a null link just when another buffer is in the hash queue of the block, and then the
buffers are as if stores through null links were harmless. -/
theorem reassign_stores_iff {n : Nat} {blocknr : Nat → Nat} {data : Nat → Nat → UInt8}
    (hrun : Relation.ReflTransGen Turn (bufferInit n blocknr data) C) (hb : b < C.nrBuffers) (hdev : dev ≠ 0) :
    ∃ C', C.reassign b dev block = some C' ∧ (C.storeReassign b dev block = some C' ↔ C.Shared b dev block) ∧
      (C.storeReassign b dev block = none ↔ ¬ C.Shared b dev block) := by
  obtain ⟨q, l, hq, hl⟩ := run_listed hrun
  obtain ⟨C', first, hre, hstore, hiff⟩ := hq.storeReassign hl.free hb hdev block
  refine ⟨C', hre, ?_, ?_⟩
  · rw [hstore, ← hiff]
    cases first <;> simp
  · rw [hstore, ← hiff]
    cases first <;> simp

/-- The second of the two buffers comes to the queue of the first one. -/
theorem reassign_stores_two : ∃ C, twoBlocks.reassign 0 0x301 0 = some C ∧ C.Shared 1 0x301 sameQueue ∧
    ∃ C', C.reassign 1 0x301 sameQueue = some C' ∧ C.storeReassign 1 0x301 sameQueue = some C' := by
  obtain ⟨C, hre, hrun⟩ := reassign_run (.refl (a := twoBlocks)) (b := 0) (Nat.zero_lt_succ 1) 0x301 0
  have hlt : 1 < C.nrBuffers := by
    cases hre
    exact Nat.lt_succ_self 1
  have hshared : C.Shared 1 0x301 sameQueue := by
    cases hre
    exact ⟨0, Nat.zero_lt_succ 1, Nat.zero_ne_one, by decide, by decide⟩
  obtain ⟨C', hre', hiff, -⟩ := reassign_stores_iff hrun hlt (by decide : 0x301 ≠ 0)
  exact ⟨C, hre, hshared, C', hre', hiff.mpr hshared⟩

end BufferCache

namespace Sharing

open BufferCache

variable {T : Type _} [DecidableEq T] {s s' : Sharing T} {requestFn : Nat → Bool}

/-- Whatever step there is, a buffer gets another block only by `reassign`. -/
theorem Inv.turn (h : s.Inv) (hstep : Step requestFn s s') : s.cache.Turn s'.cache := by
  obtain ⟨e, he⟩ := hstep
  cases e with
  | invoke t i =>
    simp only [Sharing.step] at he
    split at he
    · cases he
      exact .calm (.refl _)
    · cases he
  | resume t =>
    simp only [Sharing.step] at he
    split at he
    · cases he
      exact .calm (.refl _)
    · cases he
  | run slot =>
    obtain ⟨t, ht, he⟩ := Option.bind_eq_some_iff.mp he
    obtain ⟨c, hc, he⟩ := Option.bind_eq_some_iff.mp he
    obtain ⟨r, hr, rfl⟩ := Option.map_eq_some_iff.mp he
    have hready := h.running t ht c hc
    rw [cache_after]
    rcases (run_spec h.ok hready hr).1 with hcalm | ⟨k, b, rfl, -, -⟩
    · exact .calm hcalm
    · obtain ⟨r', hr', rfl⟩ := Option.map_eq_some_iff.mp hr
      obtain ⟨C, hre, rfl⟩ := Option.map_eq_some_iff.mp hr'
      exact .reassign b k.dev k.block hready.1 hre
  | complete b uptodate data =>
    simp only [Sharing.step] at he
    split at he
    · cases he
      exact .calm (calm_set rfl rfl)
    · cases he
  | use b dirt uptodate lock data =>
    simp only [Sharing.step] at he
    split at he
    · cases he
      exact .calm (calm_set rfl rfl)
    · cases he

/-- The buffers of calls that are interleaved in any way. -/
theorem run_turns {n : Nat} {blocknr : Nat → Nat} {data : Nat → Nat → UInt8}
    (hrun : Relation.ReflTransGen (Step requestFn) (quiet (bufferInit n blocknr data)) s) :
    Relation.ReflTransGen Turn (bufferInit n blocknr data) s.cache := by
  have hboth : s.Inv ∧ Relation.ReflTransGen Turn (bufferInit n blocknr data) s.cache := by
    refine Lib.invariant_of_run
      (I := fun s : Sharing T => s.Inv ∧ Relation.ReflTransGen Turn (bufferInit n blocknr data) s.cache)
      (fun s s' h hstep => ⟨?_, h.2.tail (h.1.turn hstep)⟩) ⟨inv_quiet (bufferInit_ok n blocknr data), .refl⟩ hrun
    obtain ⟨e, he⟩ := hstep
    exact (h.1.step he).1
  exact hboth.2

/-- The first process that needs a block. -/
def firstBlock : List (Event Bool) := .invoke true (.getblk seven) :: List.replicate 6 (.run true)

/-- Its buffer is the only one of the hash queue. -/
theorem reassign_stores_first : ∃ s : Sharing Bool, exec Heads.onlyHd firstBlock (quiet twoBlocks) = some s ∧
    s.Reassigns 0 ∧ (s.cache.reassign 0 seven.dev seven.block).isSome ∧
    s.cache.storeReassign 0 seven.dev seven.block = none := by
  have hend : ((exec Heads.onlyHd firstBlock (quiet twoBlocks)).any fun s =>
      decide (s.running = some true ∧ s.call true = some (.getblk seven (.take 0)) ∧
        (s.cache.reassign 0 seven.dev seven.block).isSome ∧
        (s.cache.storeReassign 0 seven.dev seven.block).isNone)) = true := by
    decide +kernel
  obtain ⟨s, hs, hcall⟩ := (Option.any_eq_true _ _).mp hend
  obtain ⟨hrunning, hcall, hre, hstore⟩ := of_decide_eq_true hcall
  exact ⟨s, hs, ⟨true, seven, hrunning, hcall⟩, hre, Option.isNone_iff_eq_none.mp hstore⟩

end Sharing

end Linux011.Fs
