import Linux011.Fs.Bitmap

/-!
# The bitmap blocks

`fs/bitmap.c` on the words of the up to eight bitmap blocks of each kind that a super block holds. Bit `nr` of a
map is bit `nr % 8192` of block `nr / 8192`.
-/

namespace Linux011.Fs

open Linux011.Lib

/-- The buffer of a bitmap block: its data as 256 words, and `b_dirt`. -/
structure MapBlock where
  words : Nat → BitVec 32
  dirt : Bool

namespace MapBlock

def bit (b : MapBlock) (nr : Nat) : Bool := (b.words (nr / 32)).getLsbD (nr % 32)

/-- `set_bit`: `btsl`, with the old value of the bit. -/
def setBit (b : MapBlock) (nr : Nat) : Bool × MapBlock :=
  (b.bit nr, { b with words := Function.update b.words (nr / 32) (b.words (nr / 32) ||| BitVec.twoPow 32 (nr % 32)) })

/-- `clear_bit`: `btrl`, with the inverse of the old value of the bit. -/
def clearBit (b : MapBlock) (nr : Nat) : Bool × MapBlock :=
  (!b.bit nr,
    { b with words := Function.update b.words (nr / 32) (b.words (nr / 32) &&& ~~~BitVec.twoPow 32 (nr % 32)) })

/-- `bsfl`: the lowest bit that is set, and `none` for the zero flag. -/
def bsf (w : BitVec 32) : Option Nat := (List.range 32).find? (w.getLsbD ·)

/-- The loop of `find_first_zero`; `esi` counts words. -/
def findLoop (words : Nat → BitVec 32) : (rounds esi ecx : Nat) → Nat
  | 0, _, ecx => ecx
  | rounds + 1, esi, ecx =>
    match bsf (~~~words esi) with
    | some edx => ecx + edx
    | none => if ecx + 32 < 8192 then findLoop words rounds (esi + 1) (ecx + 32) else ecx + 32

def findFirstZero (b : MapBlock) : Nat := findLoop b.words 256 0 0

end MapBlock

/-- The super block of a device with its bitmaps, and the buffers of the device. -/
structure Volume where
  sDev : BitVec 16
  sNinodes : Nat
  sNzones : Nat
  sFirstdatazone : Nat
  sImap : Nat → Option MapBlock
  sZmap : Nat → Option MapBlock
  cache : Cache

/-- The fields of `struct m_inode` that `new_inode` sets and `free_inode` reads. -/
structure MapInode where
  iUid : Nat
  iGid : Nat
  iNlinks : Nat
  iCount : Nat
  iDev : BitVec 16
  iNum : Nat
  iDirt : Bool
  iMtime : Nat
  iAtime : Nat
  iCtime : Nat

/-- `memset(inode,0,sizeof(*inode));` -/
def MapInode.zero : MapInode := ⟨0, 0, 0, 0, 0, 0, false, 0, 0, 0⟩

/-- `get_empty_inode`, as far as the inode goes that it returns. -/
def MapInode.empty : MapInode := { MapInode.zero with iCount := 1 }

namespace Volume

/-- `get_super` finds the super block of the device. -/
def hasSuper (dev : BitVec 16) (v : Volume) : Bool := dev ≠ 0 && v.sDev == dev

/-- The loop over the bitmap blocks in `new_block` and `new_inode`, from block `i` on, with what it leaves in `i`,
`bh` and `j`. -/
def search (map : Nat → Option MapBlock) :
    (rounds i : Nat) → (bh : Option MapBlock) → (j : Nat) → Nat × Option MapBlock × Nat
  | 0, i, bh, j => (i, bh, j)
  | rounds + 1, i, _, j =>
    match map i with
    | none => search map rounds (i + 1) none j
    | some b =>
      if b.findFirstZero < 8192 then (i, some b, b.findFirstZero)
      else search map rounds (i + 1) (some b) b.findFirstZero

/-- The end of `new_block`: the zone gets a cleared buffer. -/
def newZone (j : Nat) (v : Volume) : Except Panic (Nat × Volume) :=
  let cache := v.cache.getblk j
  if (cache.head j).count ≠ 1 then .error "new block: count is != 1"
  else do
    let cache ← (Dev.clearBlock j cache).brelse j
    return (j, { v with cache })

def newBlock (dev : BitVec 16) (v : Volume) : Except Panic (Nat × Volume) :=
  if v.hasSuper dev = false then .error "trying to get new block from nonexistant device"
  else
    match search v.sZmap 8 0 none 8192 with
    | (_, none, _) => .ok (0, v)
    | (i, some bh, j) =>
      if 8 ≤ i ∨ 8192 ≤ j then .ok (0, v)
      else
        let r := bh.setBit j
        if r.1 then .error "new_block: bit already set"
        else
          let v := { v with sZmap := Function.update v.sZmap i (some { r.2 with dirt := true }) }
          let j := j + i * 8192 + v.sFirstdatazone - 1
          if v.sNzones ≤ j then .ok (0, v) else v.newZone j

/-- The buffer of a freed block, if there is one. A buffer that somebody else uses stops `free_block`: the
result is then `false`. -/
def forget (block : Nat) (v : Volume) : Except Panic (Bool × Volume) :=
  match v.cache.buffer block with
  | none => .ok (true, v)
  | some _ =>
    let cache := v.cache.getblk block
    if (cache.head block).count ≠ 1 then .ok (false, { v with cache })
    else do
      let cache ← (cache.set block { cache.head block with dirt := false, uptodate := false }).brelse block
      return (true, { v with cache })

/-- The end of `free_block`. A pointer that is not there is followed all the same: a fault. -/
def clearZone (block : Nat) (v : Volume) : Except Panic Volume :=
  let block := block + 1 - v.sFirstdatazone
  if 8 ≤ block / 8192 then .error "fault"
  else
    match v.sZmap (block / 8192) with
    | none => .error "fault"
    | some bh =>
      let r := bh.clearBit (block % 8192)
      if r.1 then .error "free_block: bit already cleared"
      else .ok { v with sZmap := Function.update v.sZmap (block / 8192) (some { r.2 with dirt := true }) }

def freeBlock (dev : BitVec 16) (block : Nat) (v : Volume) : Except Panic Volume :=
  if v.hasSuper dev = false then .error "trying to free block on nonexistent device"
  else if block < v.sFirstdatazone ∨ v.sNzones ≤ block then .error "trying to free block not in datazone"
  else do
    let (done, v) ← v.forget block
    if done then v.clearZone block else return v

/-- `new_inode` of a process with `euid` and `egid`, at `time`. `empty` is what comes of `get_empty_inode`: a slot that is
`MapInode.empty`, or its panic. -/
def newInode (empty : Except Panic Unit) (euid egid time : Nat) (dev : BitVec 16) (v : Volume) :
    Except Panic (Option MapInode × Volume) := do
  empty
  if v.hasSuper dev = false then .error "new_inode with unknown device"
  else
    match search v.sImap 8 0 none 8192 with
    | (_, none, _) => .ok (none, v)
    | (i, some bh, j) =>
      if 8192 ≤ j ∨ v.sNinodes < j + i * 8192 then .ok (none, v)
      else
        let r := bh.setBit j
        if r.1 then .error "new_inode: bit already set"
        else
          .ok (some { MapInode.empty with
                      iCount := 1, iNlinks := 1, iDev := dev, iUid := euid, iGid := egid, iDirt := true,
                      iNum := j + i * 8192, iMtime := time, iAtime := time, iCtime := time },
            { v with sImap := Function.update v.sImap i (some { r.2 with dirt := true }) })

/-- `free_inode`, with what it leaves of the inode. A bit that is clear already is only reported. -/
def freeInode (inode : MapInode) (v : Volume) : Except Panic (MapInode × Volume) :=
  if inode.iDev = 0 then .ok (MapInode.zero, v)
  else if 1 < inode.iCount then .error "free_inode"
  else if inode.iNlinks ≠ 0 then .error "trying to free inode with links"
  else if v.hasSuper inode.iDev = false then .error "trying to free inode on nonexistent device"
  else if inode.iNum < 1 ∨ v.sNinodes < inode.iNum then .error "trying to free inode 0 or nonexistant inode"
  else
    match v.sImap (inode.iNum / 8192) with
    | none => .error "nonexistent imap in superblock"
    | some bh =>
      let r := bh.clearBit (inode.iNum % 8192)
      .ok (MapInode.zero,
        { v with sImap := Function.update v.sImap (inode.iNum / 8192) (some { r.2 with dirt := true }) })

end Volume

/-! ## One block -/

namespace MapBlock

variable (b : MapBlock)

theorem bsf_some {w : BitVec 32} {e : Nat} (h : bsf w = some e) :
    e < 32 ∧ w.getLsbD e = true ∧ ∀ k < e, w.getLsbD k = false := by
  obtain ⟨hset, hmem, hbefore⟩ := List.find?_range_eq_some.mp h
  refine ⟨List.mem_range.mp hmem, hset, fun k hk => ?_⟩
  simpa using hbefore k hk

theorem bsf_none {w : BitVec 32} (h : bsf w = none) : ∀ k < 32, w.getLsbD k = false := by
  intro k hk
  have hnone := List.find?_eq_none.mp h k (List.mem_range.mpr hk)
  simpa using hnone

/-- The loop has passed the first `esi` words. -/
theorem findLoop_spec {rounds : Nat} (esi : Nat) (hrounds : rounds + esi = 256) (hsome : 0 < rounds)
    (hbefore : ∀ k < 32 * esi, b.bit k = true) :
    findLoop b.words rounds esi (32 * esi) ≤ 8192 ∧
      (∀ k < findLoop b.words rounds esi (32 * esi), b.bit k = true) ∧
      (findLoop b.words rounds esi (32 * esi) < 8192 → b.bit (findLoop b.words rounds esi (32 * esi)) = false) := by
  induction rounds generalizing esi with
  | zero => omega
  | succ rounds ih =>
    have hword : ∀ k, 32 * esi ≤ k → k < 32 * esi + 32 → b.bit k = !(~~~b.words esi).getLsbD (k - 32 * esi) := by
      intro k hlow hhigh
      unfold bit
      rw [show k / 32 = esi by omega, show k % 32 = k - 32 * esi by omega, BitVec.getLsbD_not,
        decide_eq_true (by omega), Bool.true_and, Bool.not_not]
    unfold findLoop
    split
    · next e hsome =>
      obtain ⟨hlt, hclear, hset⟩ := bsf_some hsome
      refine ⟨by omega, fun k hk => ?_, fun _ => ?_⟩
      · by_cases hold : k < 32 * esi
        · exact hbefore k hold
        · rw [hword k (by omega) (by omega), hset (k - 32 * esi) (by omega), Bool.not_false]
      · rw [hword _ (by omega) (by omega), Nat.add_sub_cancel_left, hclear, Bool.not_true]
    · next hnone =>
      have hfull : ∀ k < 32 * (esi + 1), b.bit k = true := by
        intro k hk
        by_cases hold : k < 32 * esi
        · exact hbefore k hold
        · rw [hword k (by omega) (by omega), bsf_none hnone (k - 32 * esi) (by omega), Bool.not_false]
      split
      · exact ih (esi + 1) (by omega) (by omega) hfull
      · next hend =>
        refine ⟨by omega, hfull, fun h => absurd h hend⟩

/-- `find_first_zero` gives the first clear bit, or 8192. -/
theorem findFirstZero_spec : b.findFirstZero ≤ 8192 ∧ (∀ k < b.findFirstZero, b.bit k = true) ∧
    (b.findFirstZero < 8192 → b.bit b.findFirstZero = false) :=
  b.findLoop_spec 0 rfl (by decide) fun k hk => absurd hk (Nat.not_lt_zero k)

theorem bit_setBit (nr k : Nat) : (b.setBit nr).2.bit k = if k = nr then true else b.bit k := by
  unfold bit setBit
  simp only
  by_cases hword : k / 32 = nr / 32
  · rw [hword, Function.update_self, BitVec.getLsbD_or, BitVec.getLsbD_twoPow, decide_eq_true (Nat.mod_lt nr (by decide)),
      Bool.true_and]
    by_cases hbit : nr % 32 = k % 32
    · rw [decide_eq_true hbit, if_pos (by omega), Bool.or_true]
    · rw [decide_eq_false hbit, if_neg (by omega), Bool.or_false]
  · rw [Function.update_of_ne hword, if_neg (fun h => hword (by rw [h]))]

/-- Setting a clear bit and clearing it again. -/
theorem words_clearBit_setBit {nr : Nat} (h : b.bit nr = false) (dirt : Bool) :
    (({ (b.setBit nr).2 with dirt } : MapBlock).clearBit nr).2.words = b.words := by
  unfold bit at h
  unfold clearBit setBit
  simp only [Function.update_self, Function.update_idem]
  have hword : (b.words (nr / 32) ||| BitVec.twoPow 32 (nr % 32)) &&& ~~~BitVec.twoPow 32 (nr % 32) =
      b.words (nr / 32) := by
    apply BitVec.eq_of_getLsbD_eq
    intro i hi
    rw [BitVec.getLsbD_and, BitVec.getLsbD_or, BitVec.getLsbD_not, BitVec.getLsbD_twoPow, decide_eq_true hi,
      decide_eq_true (Nat.mod_lt nr (by decide)), Bool.true_and, Bool.true_and]
    by_cases hbit : nr % 32 = i
    · rw [decide_eq_true hbit, ← hbit, h]
      rfl
    · rw [decide_eq_false hbit, Bool.or_false, Bool.not_false, Bool.and_true]
  rw [hword]
  exact Function.update_eq_self _ _

end MapBlock

/-! ## The map -/

namespace Volume

/-- The bits of a map, as far as there are blocks. -/
def bits (map : Nat → Option MapBlock) (m : Nat) : Option Bool :=
  if m / 8192 < 8 then (map (m / 8192)).map (·.bit (m % 8192)) else none

/-- The data of the blocks. -/
def words (map : Nat → Option MapBlock) (i : Nat) : Option (Nat → BitVec 32) := (map i).map MapBlock.words

/-- The search has ended at the first clear bit. -/
structure Found (map : Nat → Option MapBlock) (i : Nat) (b : MapBlock) (j : Nat) : Prop where
  slot : i < 8
  block : map i = some b
  lt : j < 8192
  clear : b.bit j = false
  first : ∀ m < 8192 * i + j, bits map m ≠ some false

variable {map : Nat → Option MapBlock} {v : Volume} {dev : BitVec 16}

theorem bits_slot {i : Nat} (hi : i < 8) {j : Nat} (hj : j < 8192) :
    bits map (8192 * i + j) = (map i).map (·.bit j) := by
  unfold bits
  rw [show (8192 * i + j) / 8192 = i by omega, show (8192 * i + j) % 8192 = j by omega, if_pos hi]

theorem Found.bit {i j : Nat} {b : MapBlock} (h : Found map i b j) : bits map (8192 * i + j) = some false := by
  rw [bits_slot h.slot h.lt, h.block, Option.map_some, h.clear]

/-- A block is done when its first `n` bits have been seen. -/
theorem bits_of_block {i n m : Nat} {b : MapBlock} (hi : i < 8) (hb : map i = some b) (hset : ∀ k < n, b.bit k = true)
    (hbefore : ∀ m < 8192 * i, bits map m ≠ some false) (hn : n ≤ 8192) (hm : m < 8192 * i + n) :
    bits map m ≠ some false := by
  by_cases hold : m < 8192 * i
  · exact hbefore m hold
  · obtain ⟨k, rfl⟩ := Nat.exists_eq_add_of_le (Nat.not_lt.mp hold)
    rw [bits_slot hi (by omega), hb, Option.map_some, hset k (by omega)]
    intro h
    cases h

theorem search_spec (map : Nat → Option MapBlock) {rounds i : Nat} (bh : Option MapBlock) (hrounds : rounds + i = 8)
    (hbefore : ∀ m < 8192 * i, bits map m ≠ some false) :
    (∃ k b j, search map rounds i bh 8192 = (k, some b, j) ∧ Found map k b j) ∨
      ((∃ bh', search map rounds i bh 8192 = (8, bh', 8192)) ∧ ∀ m, bits map m ≠ some false) := by
  induction rounds generalizing i bh with
  | zero =>
    obtain rfl : i = 8 := by omega
    refine Or.inr ⟨⟨bh, rfl⟩, fun m => ?_⟩
    by_cases hm : m < 8192 * 8
    · exact hbefore m hm
    · unfold bits
      rw [if_neg (by omega)]
      intro h
      cases h
  | succ rounds ih =>
    cases hmap : map i with
    | none =>
      have hstep : search map (rounds + 1) i bh 8192 = search map rounds (i + 1) none 8192 := by rw [search, hmap]
      -- a block that is missing has no bits
      rw [hstep]
      refine ih none (by omega) fun m hm => ?_
      by_cases hold : m < 8192 * i
      · exact hbefore m hold
      · unfold bits
        rw [show m / 8192 = i by omega, if_pos (by omega), hmap]
        intro h
        cases h
    | some b =>
      obtain ⟨hle, hset, hclear⟩ := b.findFirstZero_spec
      have hseen : ∀ m < 8192 * i + b.findFirstZero, bits map m ≠ some false := fun m hm =>
        bits_of_block (by omega) hmap hset hbefore hle hm
      by_cases hlt : b.findFirstZero < 8192
      · have hstep : search map (rounds + 1) i bh 8192 = (i, some b, b.findFirstZero) := by
          rw [search, hmap]
          exact if_pos hlt
        exact Or.inl ⟨i, b, _, hstep, ⟨by omega, hmap, hlt, hclear hlt, hseen⟩⟩
      · have hall : b.findFirstZero = 8192 := by omega
        have hstep : search map (rounds + 1) i bh 8192 = search map rounds (i + 1) (some b) 8192 := by
          rw [search, hmap]
          simp only
          rw [if_neg hlt, hall]
        rw [hall] at hseen
        rw [hstep]
        exact ih (some b) (by omega) fun m hm => hseen m (by omega)

/-- One bit of a map is set. -/
theorem bits_setBit {i j : Nat} {b : MapBlock} (h : Found map i b j) :
    bits (Function.update map i (some { (b.setBit j).2 with dirt := true })) =
      Function.update (bits map) (8192 * i + j) (some true) := by
  have hlt := h.lt
  funext m
  unfold bits
  by_cases hslot : m / 8192 = i
  · rw [hslot, Function.update_self, if_pos h.slot, Option.map_some]
    have hbit : ({ (b.setBit j).2 with dirt := true } : MapBlock).bit (m % 8192) = (b.setBit j).2.bit (m % 8192) := rfl
    rw [hbit, MapBlock.bit_setBit]
    by_cases hsame : m % 8192 = j
    · rw [if_pos hsame, show m = 8192 * i + j by omega, Function.update_self]
    · rw [if_neg hsame, Function.update_of_ne (by omega), hslot, if_pos h.slot, h.block, Option.map_some]
  · rw [Function.update_of_ne hslot, Function.update_of_ne (by omega)]

/-- The bit is cleared again. -/
theorem words_clear {i j : Nat} {b : MapBlock} (h : Found map i b j) {dirt : Bool} :
    words (Function.update (Function.update map i (some { (b.setBit j).2 with dirt := true })) i
      (some { (({ (b.setBit j).2 with dirt := true } : MapBlock).clearBit j).2 with dirt })) = words map := by
  funext k
  unfold words
  rw [Function.update_idem]
  rcases eq_or_ne k i with rfl | hne
  · rw [Function.update_self, h.block, Option.map_some, Option.map_some]
    exact congrArg some (b.words_clearBit_setBit h.clear true)
  · rw [Function.update_of_ne hne]

/-! ## Zones -/

def FreeZone (v : Volume) (z : Nat) : Prop :=
  v.sFirstdatazone ≤ z ∧ z < v.sNzones ∧ bits v.sZmap (z + 1 - v.sFirstdatazone) = some false

/-- `new_block` has taken zone `z`, and `free_block` gives it back, whatever has become of the buffers. -/
structure TakenZone (dev : BitVec 16) (v : Volume) (z : Nat) (v' : Volume) : Prop where
  bits : bits v'.sZmap = Function.update (bits v.sZmap) (z + 1 - v.sFirstdatazone) (some true)
  imap : v'.sImap = v.sImap
  buffer : v'.cache.head z = ⟨fun _ => 0, true, true, 0⟩
  others : ∀ b ≠ z, v'.cache.head b = v.cache.head b
  back : ∀ cache : Cache, cache.held z = 0 → ∃ v'', freeBlock dev z { v' with cache } = .ok v'' ∧
    words v''.sZmap = words v.sZmap ∧ v''.sImap = v.sImap

/-- `getblk` takes one more reference. -/
theorem count_getblk (z : Nat) (v : Volume) : ((v.cache.getblk z).head z).count = v.cache.held z + 1 := by
  show (v.cache.getblk z).held z = _
  rw [Cache.held_getblk, Function.update_self]

theorem newZone_eq {z : Nat} (hheld : v.cache.held z = 0) : ∃ cache, v.newZone z = .ok (z, { v with cache }) ∧
    cache.head z = ⟨fun _ => 0, true, true, 0⟩ ∧ ∀ b ≠ z, cache.head b = v.cache.head b := by
  have hcount : ((v.cache.getblk z).head z).count = 1 := by rw [count_getblk, hheld]
  refine ⟨(Dev.clearBlock z (v.cache.getblk z)).set z ⟨fun _ => 0, true, true, 0⟩, ?_, Cache.head_set_self _, ?_⟩
  · unfold newZone
    simp only [hcount]
    rw [if_neg (by simp)]
    unfold Cache.brelse Dev.clearBlock
    simp only [Cache.head_set_self]
    rw [hcount]
    rfl
  · intro b hb
    rw [Cache.head_set_of_ne hb, Dev.clearBlock, Cache.head_set_of_ne hb, Cache.getblk_eq, Cache.head_set_of_ne hb]

/-- A buffer that is referenced stops the kernel. -/
theorem newZone_held {z : Nat} (hheld : v.cache.held z ≠ 0) : v.newZone z = .error "new block: count is != 1" := by
  have hcount := count_getblk z v
  unfold newZone
  simp only [hcount]
  rw [if_pos (by omega)]

theorem forget_eq {z : Nat} (hheld : v.cache.held z = 0) : ∃ cache, v.forget z = .ok (true, { v with cache }) := by
  have hcount : ((v.cache.getblk z).head z).count = 1 := by rw [count_getblk, hheld]
  unfold forget
  split
  · exact ⟨v.cache, rfl⟩
  · simp only [hcount]
    rw [if_neg (by simp)]
    unfold Cache.brelse
    simp only [Cache.head_set_self]
    exact ⟨_, rfl⟩

/-- Bit 0 of a map is set. -/
def BootBit (map : Nat → Option MapBlock) : Prop := ∀ b, map 0 = some b → b.bit 0 = true

theorem Found.pos {i j : Nat} {b : MapBlock} (h : Found map i b j) (hboot : BootBit map) : 8192 * i + j ≠ 0 := by
  intro h0
  obtain ⟨rfl, rfl⟩ : i = 0 ∧ j = 0 := by omega
  have hset := hboot b h.block
  rw [h.clear] at hset
  cases hset

/-- No bit is clear before the one that is found. -/
theorem Found.least {i j m : Nat} {b : MapBlock} (h : Found map i b j) (hm : bits map m = some false) :
    8192 * i + j ≤ m := by
  by_contra hlt
  exact h.first m (by omega) hm

/-- The bit of a zone that has been taken is cleared. -/
theorem clearZone_taken {i j z : Nat} {b : MapBlock} (h : Found v.sZmap i b j)
    (hz : z + 1 - v.sFirstdatazone = 8192 * i + j) (cache : Cache) :
    ∃ v'', ({ v with sZmap := Function.update v.sZmap i (some { (b.setBit j).2 with dirt := true }), cache } :
        Volume).clearZone z = .ok v'' ∧ words v''.sZmap = words v.sZmap ∧ v''.sImap = v.sImap := by
  have hlt := h.lt
  have hslot := h.slot
  have hset : ({ (b.setBit j).2 with dirt := true } : MapBlock).bit j = true := by
    show (b.setBit j).2.bit j = true
    rw [MapBlock.bit_setBit, if_pos rfl]
  unfold clearZone
  simp only
  rw [hz, show (8192 * i + j) / 8192 = i by omega, show (8192 * i + j) % 8192 = j by omega, if_neg (by omega)]
  simp only [Function.update_self]
  rw [if_neg (by simp [MapBlock.clearBit, hset])]
  exact ⟨_, rfl, words_clear h, rfl⟩

theorem newBlock_found {i j : Nat} {b : MapBlock} (hdev : v.hasSuper dev = true)
    (hscan : search v.sZmap 8 0 none 8192 = (i, some b, j)) (h : Found v.sZmap i b j) :
    v.newBlock dev =
      if v.sNzones ≤ j + i * 8192 + v.sFirstdatazone - 1 then
        .ok (0, { v with sZmap := Function.update v.sZmap i (some { (b.setBit j).2 with dirt := true }) })
      else
        ({ v with sZmap := Function.update v.sZmap i (some { (b.setBit j).2 with dirt := true }) } : Volume).newZone
          (j + i * 8192 + v.sFirstdatazone - 1) := by
  have hlt := h.lt
  have hslot := h.slot
  have hclear : (b.setBit j).1 = false := h.clear
  unfold newBlock
  rw [if_neg (by simp [hdev]), hscan]
  simp only
  rw [if_neg (by omega), if_neg (by simp [hclear])]

/-- `new_block` gives the lowest free zone, or 0 if there is none. It stops the kernel if the buffer of that zone
is referenced. -/
theorem newBlock_least (hdev : v.hasSuper dev = true) (hboot : BootBit v.sZmap) :
    (∃ z, v.FreeZone z ∧ (∀ y, v.FreeZone y → z ≤ y) ∧
      (v.cache.held z ≠ 0 → v.newBlock dev = .error "new block: count is != 1") ∧
      (v.cache.held z = 0 → ∃ v', v.newBlock dev = .ok (z, v') ∧ TakenZone dev v z v')) ∨
    ((∀ z, ¬ v.FreeZone z) ∧ ∃ v', v.newBlock dev = .ok (0, v')) := by
  rcases search_spec v.sZmap none (show 8 + 0 = 8 from rfl) (fun m hm => absurd hm (Nat.not_lt_zero m)) with
    ⟨i, b, j, hscan, h⟩ | ⟨⟨bh, hscan⟩, hnone⟩
  · have hpos := h.pos hboot
    have hslot := h.slot
    have hlt := h.lt
    rw [newBlock_found hdev hscan h]
    by_cases hout : v.sNzones ≤ j + i * 8192 + v.sFirstdatazone - 1
    · rw [if_pos hout]
      refine Or.inr ⟨?_, _, rfl⟩
      rintro z ⟨hfirst, hlast, hclear⟩
      have hle := h.least hclear
      omega
    · rw [if_neg hout]
      have hbit : j + i * 8192 + v.sFirstdatazone - 1 + 1 - v.sFirstdatazone = 8192 * i + j := by omega
      have hzone : v.sFirstdatazone ≤ j + i * 8192 + v.sFirstdatazone - 1 := by omega
      refine Or.inl ⟨j + i * 8192 + v.sFirstdatazone - 1, ⟨hzone, by omega, ?_⟩, ?_, fun hheld => newZone_held hheld, fun hheld => ?_⟩
      · rw [hbit, h.bit]
      · rintro y ⟨hfirst, -, hclear⟩
        have hle := h.least hclear
        omega
      · obtain ⟨cache, hnew, hbuffer, hothers⟩ := newZone_eq (v := { v with
          sZmap := Function.update v.sZmap i (some { (b.setBit j).2 with dirt := true }) }) hheld
        refine ⟨_, hnew, ?_, rfl, hbuffer, hothers, fun cache hunused => ?_⟩
        · rw [hbit]
          exact bits_setBit h
        · obtain ⟨cache', hforget⟩ := forget_eq (v := { v with
            sZmap := Function.update v.sZmap i (some { (b.setBit j).2 with dirt := true }), cache }) hunused
          obtain ⟨v'', hclear, hwords, himap⟩ := clearZone_taken h hbit cache'
          refine ⟨v'', ?_, hwords, himap⟩
          have hdev' : hasSuper dev { v with
            sZmap := Function.update v.sZmap i (some { (b.setBit j).2 with dirt := true }), cache } = true := hdev
          unfold freeBlock
          rw [if_neg (by simp [hdev']), if_neg (by simp only; omega), hforget]
          exact hclear
  · refine Or.inr ⟨fun z hz => hnone _ hz.2.2, v, ?_⟩
    unfold newBlock
    rw [if_neg (by simp [hdev]), hscan]
    cases bh with
    | none => rfl
    | some bh => rfl

/-! ## The device of numbered bits -/

/-- The map has blocks up to `blocks`. -/
def Loaded (map : Nat → Option MapBlock) (blocks : Nat) : Prop := blocks ≤ 8 ∧ ∀ i, (map i).isSome = true ↔ i < blocks

/-- The volume with its bits numbered through. -/
def toDev (imapBlocks zmapBlocks : Nat) (inode : Nat → Inode) (v : Volume) : Dev where
  cache := v.cache
  super := ⟨v.sNinodes, v.sNzones, imapBlocks, zmapBlocks, v.sFirstdatazone⟩
  zmap m := (bits v.sZmap m).getD true
  imap m := (bits v.sImap m).getD true
  inode := inode

variable {imapBlocks zmapBlocks blocks : Nat} {inode : Nat → Inode}

theorem bits_eq_false {m : Nat} : (bits map m).getD true = false ↔ bits map m = some false := by
  cases bits map m with
  | none => simp
  | some x => simp

theorem Loaded.of_bits {m : Nat} {x : Bool} (h : Loaded map blocks) (hm : bits map m = some x) : m / 8192 < blocks := by
  unfold bits at hm
  split at hm
  · apply (h.2 _).mp
    cases hmap : map (m / 8192) with
    | none =>
      rw [hmap] at hm
      cases hm
    | some b => rfl
  · cases hm

theorem Found.scanMap {i j : Nat} {b : MapBlock} (h : Found map i b j) (hl : Loaded map blocks) :
    Dev.scanMap (fun m => (bits map m).getD true) blocks 8 0 = some (i, j) := by
  have hlt := h.lt
  have hslot := h.slot
  by_contra hne
  have hset := @Dev.scanMap_first (fun m => (bits map m).getD true) blocks 8 0 (8192 * i + j) (by omega)
    (by omega) (hl.of_bits h.bit) fun a k hscan => by
      obtain ⟨ha, hk, hclear⟩ := Dev.scanMap_some hscan
      have hle := h.least (bits_eq_false.mp hclear)
      by_contra hlast
      obtain ⟨rfl, rfl⟩ : a = i ∧ k = j := by omega
      exact hne hscan
  simp only [bits_eq_false.mpr h.bit] at hset
  cases hset

theorem scanMap_none (hnone : ∀ m, bits map m ≠ some false) (blocks : Nat) :
    Dev.scanMap (fun m => (bits map m).getD true) blocks 8 0 = none := by
  cases hscan : Dev.scanMap (fun m => (bits map m).getD true) blocks 8 0 with
  | none => rfl
  | some r => exact absurd (bits_eq_false.mp (Dev.scanMap_some hscan).2.2) (hnone _)

theorem toDev_setBit {i j : Nat} {b : MapBlock} (h : Found v.sZmap i b j) :
    ({ v with sZmap := Function.update v.sZmap i (some { (b.setBit j).2 with dirt := true }) } : Volume).toDev
        imapBlocks zmapBlocks inode =
      { v.toDev imapBlocks zmapBlocks inode with
        zmap := Function.update (v.toDev imapBlocks zmapBlocks inode).zmap (8192 * i + j) true } := by
  unfold toDev
  simp only
  rw [bits_setBit h]
  congr 1
  funext m
  rcases eq_or_ne m (8192 * i + j) with rfl | hne
  · rw [Function.update_self, Function.update_self, Option.getD_some]
  · rw [Function.update_of_ne hne, Function.update_of_ne hne]

theorem toDev_newZone (z : Nat) (v : Volume) :
    (v.newZone z).map (fun r => (r.1, r.2.toDev imapBlocks zmapBlocks inode)) =
      (v.toDev imapBlocks zmapBlocks inode).newZone z := by
  unfold newZone Dev.newZone
  show _ = if ((v.cache.getblk z).head z).count ≠ 1 then _ else _
  simp only
  split
  · rfl
  · show _ = (Dev.clearBlock z (v.cache.getblk z)).brelse z >>= _
    cases (Dev.clearBlock z (v.cache.getblk z)).brelse z with
    | ok cache => rfl
    | error e => rfl

/-- `new_block` on words does what `newBlock` does on bits. -/
theorem newBlock_refines (hdev : v.hasSuper dev = true) (hl : Loaded v.sZmap zmapBlocks) :
    (v.newBlock dev).map (fun r => (r.1, r.2.toDev imapBlocks zmapBlocks inode)) =
      (v.toDev imapBlocks zmapBlocks inode).newBlock := by
  have hscan' : ∀ r, Dev.scanMap (fun m => (bits v.sZmap m).getD true) zmapBlocks 8 0 = r →
      Dev.scanMap (v.toDev imapBlocks zmapBlocks inode).zmap (v.toDev imapBlocks zmapBlocks inode).super.sZmapBlocks 8 0 = r :=
    fun _ h => h
  rcases search_spec v.sZmap none (show 8 + 0 = 8 from rfl) (fun m hm => absurd hm (Nat.not_lt_zero m)) with
    ⟨i, b, j, hscan, h⟩ | ⟨⟨bh, hscan⟩, hnone⟩
  · have hbit : (v.toDev imapBlocks zmapBlocks inode).zmap (8192 * i + j) = false := bits_eq_false.mpr h.bit
    rw [newBlock_found hdev hscan h, Dev.newBlock, hscan' _ (h.scanMap hl)]
    simp only
    have hfree : ¬ (v.toDev imapBlocks zmapBlocks inode).zmap (8192 * i + j) = true := by simp [hbit]
    rw [if_neg hfree, ← toDev_setBit h]
    show _ = if v.sNzones ≤ j + i * 8192 + v.sFirstdatazone - 1 then _ else _
    split
    · rfl
    · exact toDev_newZone _ _
  · rw [Dev.newBlock, hscan' _ (scanMap_none hnone zmapBlocks), newBlock, if_neg (by simp [hdev]), hscan]
    cases bh with
    | none => rfl
    | some bh => rfl

/-! ## Inodes -/

def FreeInode (v : Volume) (n : Nat) : Prop := 1 ≤ n ∧ n ≤ v.sNinodes ∧ bits v.sImap n = some false

/-- `new_inode` has taken inode `n`, and `free_inode` gives it back when its link count is 0. -/
structure TakenInode (v : Volume) (n : Nat) (inode : MapInode) (v' : Volume) : Prop where
  num : inode.iNum = n
  bits : bits v'.sImap = Function.update (bits v.sImap) n (some true)
  zmap : v'.sZmap = v.sZmap
  cache : v'.cache = v.cache
  back : ∀ cache : Cache, ∃ v'', freeInode { inode with iNlinks := 0 } { v' with cache } = .ok (MapInode.zero, v'') ∧
    words v''.sImap = words v.sImap ∧ v''.sZmap = v.sZmap

/-- `new_inode` gives the lowest free inode, or none. -/
theorem newInode_least (euid egid time : Nat) (hdev : v.hasSuper dev = true) (hboot : BootBit v.sImap) :
    (∃ n, v.FreeInode n ∧ (∀ m, v.FreeInode m → n ≤ m) ∧
      ∃ inode v', v.newInode (.ok ()) euid egid time dev = .ok (some inode, v') ∧ TakenInode v n inode v') ∨
    ((∀ n, ¬ v.FreeInode n) ∧ v.newInode (.ok ()) euid egid time dev = .ok (none, v)) := by
  unfold newInode
  dsimp only [bind, Except.bind]
  rw [if_neg (by simp [hdev])]
  rcases search_spec v.sImap none (show 8 + 0 = 8 from rfl) (fun m hm => absurd hm (Nat.not_lt_zero m)) with
    ⟨i, b, j, hscan, h⟩ | ⟨⟨bh, hscan⟩, hnone⟩
  · have hpos := h.pos hboot
    have hslot := h.slot
    have hlt := h.lt
    have hclear : (b.setBit j).1 = false := h.clear
    rw [hscan]
    simp only
    by_cases hout : v.sNinodes < j + i * 8192
    · rw [if_pos (Or.inr hout)]
      refine Or.inr ⟨?_, rfl⟩
      rintro n ⟨-, hlast, hfree⟩
      have hle := h.least hfree
      omega
    · have hnum : j + i * 8192 = 8192 * i + j := by omega
      rw [if_neg (by omega), if_neg (by simp [hclear])]
      refine Or.inl ⟨8192 * i + j, ⟨by omega, by omega, h.bit⟩, fun m hm => h.least hm.2.2, _, _, rfl, hnum,
        bits_setBit h, rfl, rfl, fun cache => ?_⟩
      have hdev' : hasSuper dev { v with
        sImap := Function.update v.sImap i (some { (b.setBit j).2 with dirt := true }), cache } = true := hdev
      have hzero : dev ≠ 0 := by
        unfold hasSuper at hdev
        simp only [ne_eq, Bool.and_eq_true, decide_eq_true_eq] at hdev
        exact hdev.1
      unfold freeInode
      simp only
      rw [if_neg hzero, if_neg (by omega), if_neg (by simp), if_neg (by simp [hdev']), if_neg (by omega),
        show (j + i * 8192) / 8192 = i by omega, show (j + i * 8192) % 8192 = j by omega, Function.update_self]
      exact ⟨_, rfl, words_clear h, rfl⟩
  · rw [hscan]
    refine Or.inr ⟨fun n hn => hnone _ hn.2.2, ?_⟩
    cases bh with
    | none => rfl
    | some bh => rfl

/-! ## Both -/

/-- `new_block` and `new_inode` take what is lowest among the free, if anything is, and change the one bit of it,
which `free_block` and `free_inode` change back. A referenced buffer of the zone stops `new_block`, and
`get_empty_inode` may stop `new_inode`. -/
theorem new_least (v : Volume) (dev : BitVec 16) (euid egid time : Nat) (hdev : v.hasSuper dev = true)
    (hzmap : BootBit v.sZmap) (himap : BootBit v.sImap) :
    ((∃ z, v.FreeZone z ∧ (∀ y, v.FreeZone y → z ≤ y) ∧
      (v.cache.held z ≠ 0 → v.newBlock dev = .error "new block: count is != 1") ∧
      (v.cache.held z = 0 → ∃ v', v.newBlock dev = .ok (z, v') ∧ TakenZone dev v z v')) ∨
      ((∀ z, ¬ v.FreeZone z) ∧ ∃ v', v.newBlock dev = .ok (0, v'))) ∧
    (∀ e, v.newInode (.error e) euid egid time dev = .error e) ∧
    ((∃ n, v.FreeInode n ∧ (∀ m, v.FreeInode m → n ≤ m) ∧
      ∃ inode v', v.newInode (.ok ()) euid egid time dev = .ok (some inode, v') ∧ TakenInode v n inode v') ∨
      ((∀ n, ¬ v.FreeInode n) ∧ v.newInode (.ok ()) euid egid time dev = .ok (none, v))) :=
  ⟨newBlock_least hdev hzmap, fun _ => rfl, newInode_least euid egid time hdev himap⟩

/-- A new file system on a disk of 40 blocks. -/
def smallVolume : Volume where
  sDev := 0x301
  sNinodes := 30
  sNzones := 40
  sFirstdatazone := 5
  sImap i := if i = 0 then some ⟨fun k => if k = 0 then 3 else 0, false⟩ else none
  sZmap i := if i = 0 then some ⟨fun k => if k = 0 then 1 else 0, false⟩ else none
  cache := ⟨fun _ => none, fun _ _ => 0, fun _ => true, fun _ _ => 0⟩

theorem new_least_small : (∃ v', smallVolume.newBlock 0x301 = .ok (5, v')) ∧
    ∃ inode v', smallVolume.newInode (.ok ()) 0 0 0 0x301 = .ok (some inode, v') ∧ inode.iNum = 2 := by
  have hboot : ∀ w : BitVec 32, w.getLsbD 0 = true →
      BootBit fun i => if i = 0 then some ⟨fun k => if k = 0 then w else 0, false⟩ else none := by
    rintro w hw b hb
    cases hb
    exact hw
  obtain ⟨hzones, -, hinodes⟩ := new_least smallVolume 0x301 0 0 0 (by decide) (hboot 1 rfl) (hboot 3 rfl)
  have hzone : smallVolume.FreeZone 5 := ⟨by decide, by decide, rfl⟩
  have hinode : smallVolume.FreeInode 2 := ⟨by decide, by decide, rfl⟩
  constructor
  · rcases hzones with ⟨z, hz, hleast, -, hnew⟩ | ⟨hnone, -⟩
    · have hfive : z = 5 := Nat.le_antisymm (hleast 5 hzone) hz.1
      obtain ⟨v', hv', -⟩ := hnew rfl
      exact ⟨v', hfive ▸ hv'⟩
    · exact absurd hzone (hnone 5)
  · rcases hinodes with ⟨n, hn, hleast, inode, v', hnew, htaken⟩ | ⟨hnone, -⟩
    · have hle := hleast 2 hinode
      have hne : n ≠ 1 := by
        rintro rfl
        cases hn.2.2
      have hpos := hn.1
      exact ⟨inode, v', hnew, by rw [htaken.num]; omega⟩
    · exact absurd hinode (hnone 2)

end Volume

end Linux011.Fs
