import Mathlib.Data.Finset.Card
import Mathlib.Data.Finset.Range
import Linux011.Fs.Buffer

/-!
# fs/bitmap.c

The file system of one device: its buffers, its super block, the zone and inode bitmaps that the super
block holds in memory, and its inodes. An inode stands for itself in memory and on disk, since
`read_inode` and `write_inode` move it back and forth unchanged; times and the dirty flag are left out.
-/

namespace Linux011.Fs

open Linux011.Lib

/-- `struct super_block`, as far as the bitmaps go. -/
structure Super where
  sNinodes : Nat
  sNzones : Nat
  sImapBlocks : Nat
  sZmapBlocks : Nat
  sFirstdatazone : Nat

/-- The numbers fit each other: the fields are 16 bits wide, there are at most eight bitmap blocks of each
kind, and they have a bit for each zone and inode. -/
structure Super.Sound (sb : Super) : Prop where
  nzones_lt : sb.sNzones < 2 ^ 16
  first_pos : 0 < sb.sFirstdatazone
  zmap_le : sb.sZmapBlocks ≤ 8
  zmap_cover : sb.sNzones < sb.sFirstdatazone + 8192 * sb.sZmapBlocks
  imap_le : sb.sImapBlocks ≤ 8
  imap_cover : sb.sNinodes < 8192 * sb.sImapBlocks
  ninodes_lt : sb.sNinodes < 2 ^ 16

/-- `struct m_inode` -/
structure Inode where
  iMode : Nat
  iUid : Nat
  iGid : Nat
  iSize : Nat
  iNlinks : UInt8
  iZone : Nat → Nat
  iCount : Nat

/-- `memset(inode, 0, sizeof(*inode))` -/
def Inode.zero : Inode := ⟨0, 0, 0, 0, 0, fun _ => 0, 0⟩

/-- The bits of the eight bitmap blocks are numbered through. -/
structure Dev where
  cache : Cache
  super : Super
  zmap : Nat → Bool
  imap : Nat → Bool
  inode : Nat → Inode

namespace Dev

def setInode (n : Nat) (i : Inode) (s : Dev) : Dev := { s with inode := Function.update s.inode n i }

def setZone (n k z : Nat) (s : Dev) : Dev :=
  s.setInode n { s.inode n with iZone := Function.update (s.inode n).iZone k z }

def setCount (n count : Nat) (s : Dev) : Dev := s.setInode n { s.inode n with iCount := count }

def bread (b : Nat) (s : Dev) : Except Panic (Bool × Dev) := do
  let (got, cache) ← s.cache.bread b
  return (got, { s with cache })

def brelse (b : Nat) (s : Dev) : Except Panic Dev := do
  let cache ← s.cache.brelse b
  return { s with cache }

def modify (b : Nat) (f : (Nat → UInt8) → Nat → UInt8) (s : Dev) : Dev :=
  { s with cache := s.cache.modify b f }

/-- `((unsigned short *) data)[k]` -/
def word (data : Nat → UInt8) (k : Nat) : Nat :=
  (data (2 * k)).toNat + 256 * (data (2 * k + 1)).toNat

/-- `((unsigned short *) data)[k] = v` -/
def setWord (k v : Nat) (data : Nat → UInt8) (i : Nat) : UInt8 :=
  if i = 2 * k then UInt8.ofNat v else if i = 2 * k + 1 then UInt8.ofNat (v / 256) else data i

/-- The entry `k` of an index block whose buffer is held. -/
def entry (s : Dev) (b k : Nat) : Nat := word (s.cache.head b).data k

/-! ## The bitmaps -/

/-- `find_first_zero`: the first zero among the `n` bits from `j` on, or the end. -/
def findFirstZero (bit : Nat → Bool) : (n j : Nat) → Nat
  | 0, j => j
  | n + 1, j => if bit j then findFirstZero bit n (j + 1) else j

/-- The search of `new_block` and `new_inode` through the bitmap blocks from `i` on. A block that the
super block does not have is passed over. -/
def scanMap (map : Nat → Bool) (blocks : Nat) : (n i : Nat) → Option (Nat × Nat)
  | 0, _ => none
  | n + 1, i =>
    let j := findFirstZero (fun j => map (8192 * i + j)) 8192 0
    if i < blocks ∧ j < 8192 then some (i, j) else scanMap map blocks n (i + 1)

/-- `clear_block(bh->b_data)`, and the buffer is up to date and dirty. -/
def clearBlock (b : Nat) (c : Cache) : Cache :=
  c.set b { c.head b with data := fun _ => 0, uptodate := true, dirt := true }

/-- The end of `new_block`: the zone gets a cleared buffer. -/
def newZone (j : Nat) (s : Dev) : Except Panic (Nat × Dev) :=
  let cache := s.cache.getblk j
  if (cache.head j).count ≠ 1 then .error "new block: count is != 1"
  else do
    let cache ← (clearBlock j cache).brelse j
    return (j, { s with cache })

/-- `new_block`, with 0 for a full device. The bit of a zone beyond the last one is set all the same. -/
def newBlock (s : Dev) : Except Panic (Nat × Dev) :=
  match scanMap s.zmap s.super.sZmapBlocks 8 0 with
  | none => .ok (0, s)
  | some (i, j) =>
    if s.zmap (8192 * i + j) then .error "new_block: bit already set"
    else
      let s := { s with zmap := Function.update s.zmap (8192 * i + j) true }
      let j := j + i * 8192 + s.super.sFirstdatazone - 1
      if s.super.sNzones ≤ j then .ok (0, s) else s.newZone j

/-- The buffer of a freed block, if there is one, is neither dirty nor up to date any more. A buffer that
somebody else uses stops `free_block`: the result is then `false`. -/
def forget (block : Nat) (s : Dev) : Except Panic (Bool × Dev) :=
  match s.cache.buffer block with
  | none => .ok (true, s)
  | some _ =>
    let cache := s.cache.getblk block
    if (cache.head block).count ≠ 1 then .ok (false, { s with cache })
    else do
      let cache ← (cache.set block { cache.head block with dirt := false, uptodate := false }).brelse
        block
      return (true, { s with cache })

/-- The end of `free_block`: the bit is cleared. -/
def clearBit (block : Nat) (s : Dev) : Except Panic Dev :=
  let bit := block - (s.super.sFirstdatazone - 1)
  if s.zmap bit then .ok { s with zmap := Function.update s.zmap bit false }
  else .error "free_block: bit already cleared"

def freeBlock (block : Nat) (s : Dev) : Except Panic Dev :=
  if block < s.super.sFirstdatazone ∨ s.super.sNzones ≤ block then
    .error "trying to free block not in datazone"
  else do
    let (done, s) ← s.forget block
    if done then s.clearBit block else return s

def freeInode (n : Nat) (s : Dev) : Except Panic Dev :=
  if 1 < (s.inode n).iCount then .error "free_inode"
  else if (s.inode n).iNlinks ≠ 0 then .error "trying to free inode with links"
  else if n < 1 ∨ s.super.sNinodes < n then .error "trying to free inode 0 or nonexistant inode"
  else if s.super.sImapBlocks ≤ n / 8192 then .error "nonexistent imap in superblock"
  else .ok ({ s with imap := Function.update s.imap n false }.setInode n Inode.zero)

/-! ## What a file system stands for -/

/-- The bytes of a block, as `bread` would find them. -/
def contents (s : Dev) (b : Nat) : Nat → UInt8 := s.cache.contents b

def held (s : Dev) (b : Nat) : Nat := s.cache.held b

/-- A zone of the data area is marked as used. -/
def Used (s : Dev) (z : Nat) : Prop :=
  s.super.sFirstdatazone ≤ z ∧ z < s.super.sNzones ∧ s.zmap (z - (s.super.sFirstdatazone - 1)) = true

/-- `bread` gets the block: it is cached, or requests for it succeed. -/
def Readable (s : Dev) (b : Nat) : Prop := (s.cache.head b).uptodate = true ∨ s.cache.works b = true

/-- More may be cached, and the reference counts of buffers may differ. -/
structure Same (s s' : Dev) : Prop where
  cache : s.cache.Same s'.cache
  super : s'.super = s.super
  zmap : s'.zmap = s.zmap
  imap : s'.imap = s.imap
  inode : s'.inode = s.inode

variable {s s' : Dev} {b : Nat}

theorem Same.refl (s : Dev) : Same s s := ⟨Cache.Same.refl _, rfl, rfl, rfl, rfl⟩

theorem Same.trans {s'' : Dev} (h : Same s s') (h' : Same s' s'') : Same s s'' :=
  ⟨h.cache.trans h'.cache, h'.super.trans h.super, h'.zmap.trans h.zmap, h'.imap.trans h.imap,
    h'.inode.trans h.inode⟩

theorem Same.contents (h : Same s s') : s'.contents = s.contents := h.cache.contents

theorem Same.used (h : Same s s') (z : Nat) : s'.Used z ↔ s.Used z := by
  unfold Used
  rw [h.super, h.zmap]

theorem Same.readable (h : Same s s') (hb : s.Readable b) : s'.Readable b := by
  unfold Readable
  rw [h.cache.works]
  exact hb.imp_left (h.cache.uptodate b)

theorem bread_spec (b : Nat) (s : Dev) :
    Post (s.bread b)
      (fun r => Same s r.2 ∧
        ((r.1 = true ∧ (r.2.cache.head b).uptodate = true ∧
            r.2.held = Function.update s.held b (s.held b + 1)) ∨
          (r.1 = false ∧ ¬ s.Readable b ∧ r.2.held = s.held)))
      (fun _ => False) := by
  refine Post.bind ((Cache.bread_spec b s.cache).and (Post.self _) |>.mono (fun _ h => h) fun _ h => h.1) ?_
  rintro r ⟨⟨hsame, hgot⟩, hr⟩
  refine Post.ret ⟨⟨hsame, rfl, rfl, rfl, rfl⟩, hgot.imp_right ?_⟩
  rintro ⟨hfail, hbad, hheld⟩
  refine ⟨hfail, ?_, hheld⟩
  rintro (hup | hworks)
  · rw [Cache.bread_uptodate hup] at hr
    cases hr
    cases hfail
  · rw [hbad] at hworks
    cases hworks

theorem brelse_spec {n : Nat} (hheld : s.held b = n + 1) :
    Post (s.brelse b) (fun s' => Same s s' ∧ s'.held = Function.update s.held b n)
      (fun _ => False) := by
  refine Post.bind (Cache.brelse_spec hheld) ?_
  intro c hc
  exact Post.ret ⟨⟨hc.1, rfl, rfl, rfl, rfl⟩, hc.2⟩

theorem bread_readable (b : Nat) (s : Dev) :
    Post (s.bread b)
      (fun r => Same s r.2 ∧ (∀ z, r.2.Readable z ↔ s.Readable z) ∧
        (s.Readable b ∧ r.1 = true ∧ (r.2.cache.head b).uptodate = true ∧
            r.2.held = Function.update s.held b (s.held b + 1) ∨
          ¬ s.Readable b ∧ r.1 = false ∧ r.2.held = s.held))
      (fun _ => False) := by
  have hback : Post (s.bread b) (fun r => (∀ z, (r.2.cache.head z).uptodate = true → s.Readable z) ∧
      (r.1 = true → s.Readable b)) (fun _ => True) :=
    Post.bind Cache.bread_readable fun r hr => Post.ret hr
  refine ((bread_spec b s).and hback).mono ?_ fun _ he => he.1
  rintro r ⟨⟨hsame, hgot⟩, hup, hread⟩
  refine ⟨hsame, fun z => ⟨?_, hsame.readable⟩, ?_⟩
  · rintro (hz | hworks)
    · exact hup z hz
    · rw [hsame.cache.works] at hworks
      exact Or.inr hworks
  · rcases hgot with ⟨hok, hb, hheld⟩ | ⟨hfail, hbad, hheld⟩
    · exact Or.inl ⟨hread hok, hok, hb, hheld⟩
    · exact Or.inr ⟨hbad, hfail, hheld⟩

theorem brelse_readable {k : Nat} (hheld : s.held b = k + 1) :
    Post (s.brelse b)
      (fun s' => Same s s' ∧ (∀ z, s'.Readable z ↔ s.Readable z) ∧ s'.held = Function.update s.held b k)
      (fun _ => False) := by
  have hback : Post (s.brelse b) (fun s' => ∀ z, (s'.cache.head z).uptodate = (s.cache.head z).uptodate)
      (fun _ => True) :=
    Post.bind Cache.uptodate_brelse fun c hc => Post.ret hc
  refine ((brelse_spec hheld).and hback).mono ?_ fun _ he => he.1
  rintro s' ⟨⟨hsame, hheld'⟩, hup⟩
  refine ⟨hsame, fun z => ?_, hheld'⟩
  unfold Readable
  rw [hup, hsame.cache.works]

theorem entry_eq (k : Nat) (hup : (s.cache.head b).uptodate = true) :
    s.entry b k = word (s.contents b) k := by
  unfold entry contents Cache.contents
  rw [if_pos hup]

theorem word_setWord {k v : Nat} (data : Nat → UInt8) (hv : v < 2 ^ 16) (k' : Nat) :
    word (setWord k v data) k' = if k' = k then v else word data k' := by
  unfold word setWord
  rcases eq_or_ne k' k with rfl | hne
  · rw [if_pos rfl, if_pos rfl, if_neg (by omega), if_pos rfl]
    simp only [UInt8.toNat_ofNat']
    omega
  · rw [if_neg hne, if_neg (by omega), if_neg (by omega), if_neg (by omega), if_neg (by omega)]

theorem word_zero (k : Nat) : word (fun _ => 0) k = 0 := rfl

/-! ## Finding a bit -/

theorem findFirstZero_spec (bit : Nat → Bool) : ∀ n j,
    j ≤ findFirstZero bit n j ∧ findFirstZero bit n j ≤ j + n ∧
      (findFirstZero bit n j < j + n → bit (findFirstZero bit n j) = false) := by
  intro n
  induction n with
  | zero => exact fun j => ⟨Nat.le_refl j, Nat.le_refl j, fun h => absurd h (Nat.lt_irrefl j)⟩
  | succ n ih =>
    intro j
    unfold findFirstZero
    cases hbit : bit j with
    | false => exact ⟨Nat.le_refl j, Nat.le_add_right j _, fun _ => hbit⟩
    | true =>
      obtain ⟨h1, h2, h3⟩ := ih (j + 1)
      rw [if_pos rfl]
      exact ⟨by omega, by omega, fun h => h3 (by omega)⟩

theorem findFirstZero_first (bit : Nat → Bool) : ∀ n j m, j ≤ m → m < findFirstZero bit n j → bit m = true := by
  intro n
  induction n with
  | zero => exact fun j m h1 h2 => absurd h2 (Nat.not_lt.mpr h1)
  | succ n ih =>
    intro j m h1 h2
    unfold findFirstZero at h2
    cases hbit : bit j with
    | false =>
      rw [hbit, if_neg Bool.false_ne_true] at h2
      exact absurd h2 (Nat.not_lt.mpr h1)
    | true =>
      rw [hbit, if_pos rfl] at h2
      rcases Nat.eq_or_lt_of_le h1 with rfl | hlt
      · exact hbit
      · exact ih (j + 1) m hlt h2

/-- All the bits that the search has passed over are set. -/
theorem scanMap_first {map : Nat → Bool} {blocks n i m : Nat} (h1 : 8192 * i ≤ m) (h2 : m < 8192 * (i + n))
    (h3 : m / 8192 < blocks)
    (hbefore : ∀ a j, scanMap map blocks n i = some (a, j) → m < 8192 * a + j) : map m = true := by
  induction n generalizing i with
  | zero => omega
  | succ n ih =>
    rw [scanMap] at hbefore
    have hfirst := findFirstZero_first (fun j => map (8192 * i + j)) 8192 0 (m - 8192 * i) (Nat.zero_le _)
    have hsum : 8192 * i + (m - 8192 * i) = m := by omega
    rw [hsum] at hfirst
    have hle := (findFirstZero_spec (fun j => map (8192 * i + j)) 8192 0).2.1
    split at hbefore
    · have hlt := hbefore _ _ rfl
      exact hfirst (by omega)
    · next hfull =>
      by_cases hnext : 8192 * (i + 1) ≤ m
      · exact ih hnext (by omega) hbefore
      · exact hfirst (by omega)

theorem scanMap_some {map : Nat → Bool} {blocks n i a j : Nat}
    (h : scanMap map blocks n i = some (a, j)) :
    a < blocks ∧ j < 8192 ∧ map (8192 * a + j) = false := by
  induction n generalizing i with
  | zero => cases h
  | succ n ih =>
    rw [scanMap] at h
    split at h
    · next hfound =>
      cases h
      refine ⟨hfound.1, hfound.2, ?_⟩
      exact (findFirstZero_spec (fun j => map (8192 * a + j)) 8192 0).2.2 (by simpa using hfound.2)
    · exact ih h

/-! ## new_block -/

/-- `newBlock` has taken zone `z`. -/
structure Fresh (s : Dev) (z : Nat) (s' : Dev) : Prop where
  range : s.super.sFirstdatazone ≤ z ∧ z < s.super.sNzones
  free : s.zmap (z - (s.super.sFirstdatazone - 1)) = false
  zmap : s'.zmap = Function.update s.zmap (z - (s.super.sFirstdatazone - 1)) true
  wrote : s.cache.Wrote z (fun _ => 0) s'.cache
  uptodate : (s'.cache.head z).uptodate = true
  super : s'.super = s.super
  imap : s'.imap = s.imap
  inode : s'.inode = s.inode

/-- `newBlock` has found nothing. A bit that stands for no zone may be set. -/
structure Full (s s' : Dev) : Prop where
  zmap : ∃ bit, s'.zmap = s.zmap ∨
    (s.super.sNzones ≤ bit + s.super.sFirstdatazone - 1 ∧ s'.zmap = Function.update s.zmap bit true)
  cache : s'.cache = s.cache
  super : s'.super = s.super
  imap : s'.imap = s.imap
  inode : s'.inode = s.inode

theorem Full.used (h : Full s s') (z : Nat) : s'.Used z ↔ s.Used z := by
  unfold Used
  rw [h.super]
  refine and_congr_right fun hfirst => and_congr_right fun hlast => ?_
  obtain ⟨bit, heq | ⟨hout, heq⟩⟩ := h.zmap
  · rw [heq]
  · rw [heq, Function.update_of_ne (by omega)]

theorem Full.zero_bit (h : Full s s') (hz : s.zmap 0 = true) : s'.zmap 0 = true := by
  obtain ⟨bit, heq | ⟨-, heq⟩⟩ := h.zmap
  · rw [heq, hz]
  · rw [heq]
    by_cases hbit : 0 = bit
    · rw [← hbit, Function.update_self]
    · rw [Function.update_of_ne hbit, hz]

theorem Fresh.not_used {z : Nat} (h : Fresh s z s') : ¬ s.Used z := by
  intro hused
  have hfree := h.free
  rw [hused.2.2] at hfree
  cases hfree

theorem Fresh.readable {z : Nat} (h : Fresh s z s') (hb : s.Readable b ∨ b = z) : s'.Readable b := by
  rcases hb with (hup | hworks) | rfl
  · exact Or.inl (h.wrote.uptodate b hup)
  · exact Or.inr (by rw [h.wrote.works, hworks])
  · exact Or.inl h.uptodate

theorem Fresh.ne_zero {z : Nat} (h : Fresh s z s') (hs : s.super.Sound) : z ≠ 0 := by
  have h1 := h.range.1
  have h2 := hs.first_pos
  omega

theorem Fresh.used {z : Nat} (h : Fresh s z s') (hs : s.super.Sound) (z' : Nat) :
    s'.Used z' ↔ s.Used z' ∨ z' = z := by
  have h1 := h.range
  have h2 := hs.first_pos
  unfold Used
  rw [h.super, h.zmap]
  rcases eq_or_ne z' z with rfl | hne
  · simp [h1]
  · constructor
    · rintro ⟨hfirst, hlast, hbit⟩
      rw [Function.update_of_ne (by omega)] at hbit
      exact Or.inl ⟨hfirst, hlast, hbit⟩
    · rintro (⟨hfirst, hlast, hbit⟩ | heq)
      · rw [Function.update_of_ne (by omega)]
        exact ⟨hfirst, hlast, hbit⟩
      · exact absurd heq hne

theorem newZone_spec {j : Nat} (hheld : s.held j = 0) :
    Post (s.newZone j)
      (fun r => r.1 = j ∧ ∃ cache, s.cache.Wrote j (fun _ => 0) cache ∧ (cache.head j).uptodate = true ∧
        r.2 = { s with cache })
      (fun _ => False) := by
  have hcount : ((s.cache.getblk j).head j).count = 1 := by
    show (s.cache.getblk j).held j = 1
    rw [Cache.held_getblk, Function.update_self]
    show s.held j + 1 = 1
    rw [hheld]
  unfold newZone
  simp only [hcount]
  rw [if_neg (by simp)]
  have hclear : (clearBlock j (s.cache.getblk j)).held j = 0 + 1 := by
    unfold clearBlock
    rw [Cache.set_held, Function.update_self]
    exact hcount
  refine Post.bind (Cache.brelse_spec hclear) ?_
  rintro cache ⟨hsame, hheld'⟩
  have hup : (cache.head j).uptodate = true := by
    apply hsame.uptodate
    unfold clearBlock
    rw [Cache.head_set_self]
  refine Post.ret ⟨rfl, cache, ⟨?_, ?_, ?_, ?_, ?_⟩, hup, rfl⟩
  · rw [hsame.contents, clearBlock, Cache.set_contents, if_pos rfl, (Cache.same_getblk j).contents]
  · rw [hheld', clearBlock, Cache.set_held, Cache.held_getblk]
    funext b
    rcases eq_or_ne b j with rfl | hne
    · rw [Function.update_self]
      exact hheld.symm
    · rw [Function.update_of_ne hne, Function.update_of_ne hne, Function.update_of_ne hne]
  · rw [hsame.works]
    exact (Cache.same_getblk j).works
  · intro b hup
    apply hsame.uptodate
    exact Cache.uptodate_set (fun _ => rfl) b ((Cache.same_getblk j).uptodate b hup)
  · intro hc
    apply hsame.coherent
    exact ((Cache.same_getblk j).coherent hc).set (fun _ hd => by cases hd) fun _ => rfl

/-- `newBlock` gives a zone that was free, cleared, or 0. -/
theorem newBlock_spec (hs : s.super.Sound) (hzero : s.zmap 0 = true)
    (hheld : ∀ z, s.super.sFirstdatazone ≤ z → z < s.super.sNzones → ¬ s.Used z → s.held z = 0) :
    Post s.newBlock (fun r => (r.1 = 0 ∧ Full s r.2) ∨ Fresh s r.1 r.2) (fun _ => False) := by
  unfold newBlock
  split
  · exact Post.ret (Or.inl ⟨rfl, ⟨0, Or.inl rfl⟩, rfl, rfl, rfl, rfl⟩)
  · next i j hscan =>
    obtain ⟨hi, hj, hbit⟩ := scanMap_some hscan
    have hfirst := hs.first_pos
    -- bit 0 is set, so the bit found stands for a zone
    have hpos : 8192 * i + j ≠ 0 := by
      intro h0
      rw [h0, hzero] at hbit
      cases hbit
    rw [if_neg (by simp [hbit])]
    simp only
    split
    · next hout =>
      refine Post.ret (Or.inl ⟨rfl, ⟨8192 * i + j, Or.inr ⟨?_, rfl⟩⟩, rfl, rfl, rfl, rfl⟩)
      omega
    · next hin =>
      have hz : j + i * 8192 + s.super.sFirstdatazone - 1 - (s.super.sFirstdatazone - 1)
          = 8192 * i + j := by omega
      have hfree : s.zmap (j + i * 8192 + s.super.sFirstdatazone - 1
          - (s.super.sFirstdatazone - 1)) = false := by rw [hz, hbit]
      have hunused : ¬ s.Used (j + i * 8192 + s.super.sFirstdatazone - 1) := by
        intro hused
        have hset := hused.2.2
        rw [hfree] at hset
        cases hset
      have hnot := hheld _ (by omega) (by omega) hunused
      refine (newZone_spec (s := { s with zmap := Function.update s.zmap (8192 * i + j) true })
        hnot).imp ?_
      rintro r ⟨hr, cache, hwrote, hup, hs'⟩
      refine Or.inr ?_
      rw [hr, hs']
      exact ⟨⟨by omega, by omega⟩, hfree, by rw [hz], hwrote, hup, rfl, rfl, rfl⟩

/-- How many zones of the data area are free. -/
def spare (s : Dev) : Nat :=
  ((Finset.range s.super.sNzones).filter fun z =>
    s.super.sFirstdatazone ≤ z ∧ s.zmap (z - (s.super.sFirstdatazone - 1)) = false).card

theorem spare_eq_zero (h : ∀ z, s.super.sFirstdatazone ≤ z → z < s.super.sNzones →
    s.zmap (z - (s.super.sFirstdatazone - 1)) = true) : s.spare = 0 := by
  apply Finset.card_eq_zero.mpr
  apply Finset.filter_eq_empty_iff.mpr
  intro z hz hfree
  rw [h z hfree.1 (Finset.mem_range.mp hz)] at hfree
  cases hfree.2

theorem spare_congr (hsuper : s'.super = s.super) (hused : ∀ z, s'.Used z ↔ s.Used z) : s'.spare = s.spare := by
  unfold spare
  rw [hsuper]
  apply congrArg Finset.card
  apply Finset.filter_congr
  intro z hz
  refine and_congr_right fun hfirst => ?_
  have hiff := hused z
  unfold Used at hiff
  rw [hsuper] at hiff
  have hbit := (and_congr_right_iff.mp ((and_congr_right_iff.mp hiff) hfirst)) (Finset.mem_range.mp hz)
  rw [← Bool.not_eq_true, ← Bool.not_eq_true, hbit]

theorem Same.spare (h : Same s s') : s'.spare = s.spare := spare_congr h.super h.used

theorem Full.spare (h : Full s s') : s'.spare = s.spare := spare_congr h.super h.used

/-- A fresh zone was one of the free ones. -/
theorem Fresh.spare {z : Nat} (h : Fresh s z s') (hs : s.super.Sound) : s'.spare + 1 = s.spare := by
  have hmem : z ∈ (Finset.range s.super.sNzones).filter fun z =>
      s.super.sFirstdatazone ≤ z ∧ s.zmap (z - (s.super.sFirstdatazone - 1)) = false :=
    Finset.mem_filter.mpr ⟨Finset.mem_range.mpr h.range.2, h.range.1, h.free⟩
  have herase : (Finset.range s.super.sNzones).filter (fun y =>
      s.super.sFirstdatazone ≤ y ∧ s'.zmap (y - (s.super.sFirstdatazone - 1)) = false) =
      ((Finset.range s.super.sNzones).filter fun y =>
        s.super.sFirstdatazone ≤ y ∧ s.zmap (y - (s.super.sFirstdatazone - 1)) = false).erase z := by
    ext y
    have h1 := h.range.1
    have h2 := hs.first_pos
    rw [Finset.mem_erase, Finset.mem_filter, Finset.mem_filter, h.zmap]
    rcases eq_or_ne y z with rfl | hne
    · simp
    · constructor
      · rintro ⟨hr, hfirst, hbit⟩
        rw [Function.update_of_ne (by omega)] at hbit
        exact ⟨hne, hr, hfirst, hbit⟩
      · rintro ⟨-, hr, hfirst, hbit⟩
        rw [Function.update_of_ne (by omega)]
        exact ⟨hr, hfirst, hbit⟩
  unfold Dev.spare
  rw [h.super, herase]
  exact Finset.card_erase_add_one hmem

/-- When `newBlock` finds nothing, there is nothing. -/
theorem newBlock_full (hs : s.super.Sound) (hzero : s.zmap 0 = true) :
    Post s.newBlock (fun r => r.1 = 0 → s.spare = 0) (fun _ => True) := by
  have hfirst := hs.first_pos
  have hcover := hs.zmap_cover
  have hblocks := hs.zmap_le
  unfold newBlock
  split
  · next hscan =>
    refine Post.ret fun _ => spare_eq_zero fun z h1 h2 => ?_
    have hbit : (z - (s.super.sFirstdatazone - 1)) / 8192 < s.super.sZmapBlocks := by omega
    exact scanMap_first (n := 8) (i := 0) (by omega) (by omega) hbit fun a j h => by
      rw [hscan] at h
      cases h
  · next i j hscan =>
    split
    · exact Post.stop trivial
    · simp only
      split
      · next hout =>
        refine Post.ret fun _ => spare_eq_zero fun z h1 h2 => ?_
        have hbit : (z - (s.super.sFirstdatazone - 1)) / 8192 < s.super.sZmapBlocks := by omega
        refine scanMap_first (n := 8) (i := 0) (by omega) (by omega) hbit fun a j' h => ?_
        rw [hscan] at h
        cases h
        omega
      · next hin =>
        refine ⟨fun r hr hz => ?_, fun _ _ => trivial⟩
        unfold newZone at hr
        simp only at hr
        split at hr
        · cases hr
        · obtain ⟨c, -, hr⟩ := ok_of_bind hr
          cases hr
          simp only at hz
          have hbit := (scanMap_some hscan).2.2
          rw [show 8192 * i + j = 0 by omega, hzero] at hbit
          cases hbit

/-! ## free_block -/

/-- `freeBlock` has given zone `z` back. What the block holds from now on is left open. -/
structure Freed (s : Dev) (z : Nat) (s' : Dev) : Prop where
  zmap : s'.zmap = Function.update s.zmap (z - (s.super.sFirstdatazone - 1)) false
  contents : ∀ b ≠ z, s'.contents b = s.contents b
  held : s'.held = s.held
  works : s'.cache.works = s.cache.works
  uptodate : ∀ b ≠ z, (s.cache.head b).uptodate = true → (s'.cache.head b).uptodate = true
  coherent : s.cache.Coherent → s'.cache.Coherent
  super : s'.super = s.super
  imap : s'.imap = s.imap
  inode : s'.inode = s.inode

theorem Freed.used {z : Nat} (h : Freed s z s') (hs : s.super.Sound) (hz : s.Used z) (z' : Nat) :
    s'.Used z' ↔ s.Used z' ∧ z' ≠ z := by
  have h1 := hz.1
  have h2 := hs.first_pos
  unfold Used
  rw [h.super, h.zmap]
  rcases eq_or_ne z' z with rfl | hne
  · simp
  · constructor
    · rintro ⟨hfirst, hlast, hbit⟩
      rw [Function.update_of_ne (by omega)] at hbit
      exact ⟨⟨hfirst, hlast, hbit⟩, hne⟩
    · rintro ⟨⟨hfirst, hlast, hbit⟩, -⟩
      rw [Function.update_of_ne (by omega)]
      exact ⟨hfirst, hlast, hbit⟩

theorem forget_spec {z : Nat} (hheld : s.held z = 0) :
    Post (s.forget z)
      (fun r => r.1 = true ∧ ∃ cache, r.2 = { s with cache } ∧
        (∀ b ≠ z, cache.contents b = s.contents b) ∧ cache.held = s.held ∧
        cache.works = s.cache.works ∧
        (∀ b ≠ z, (s.cache.head b).uptodate = true → (cache.head b).uptodate = true) ∧
        (s.cache.Coherent → cache.Coherent))
      (fun _ => False) := by
  unfold forget
  split
  · exact Post.ret ⟨rfl, s.cache, rfl, fun _ _ => rfl, rfl, rfl, fun _ _ hup => hup, id⟩
  · have hcount : ((s.cache.getblk z).head z).count = 1 := by
      show (s.cache.getblk z).held z = 1
      rw [Cache.held_getblk, Function.update_self]
      show s.held z + 1 = 1
      rw [hheld]
    simp only
    rw [if_neg (by rw [hcount]; simp)]
    have hone : ((s.cache.getblk z).set z { (s.cache.getblk z).head z with
        dirt := false, uptodate := false }).held z = 0 + 1 := by
      rw [Cache.set_held, Function.update_self]
      exact hcount
    refine Post.bind (Cache.brelse_spec hone) ?_
    rintro cache ⟨hsame, hheld'⟩
    refine Post.ret ⟨rfl, cache, rfl, ?_, ?_, ?_, ?_, ?_⟩
    · intro b hb
      rw [hsame.contents, Cache.set_contents, Function.update_of_ne hb, (Cache.same_getblk z).contents]
      rfl
    · rw [hheld', Cache.set_held, Cache.held_getblk]
      funext b
      rcases eq_or_ne b z with rfl | hne
      · rw [Function.update_self]
        exact hheld.symm
      · rw [Function.update_of_ne hne, Function.update_of_ne hne, Function.update_of_ne hne]
        rfl
    · rw [hsame.works]
      exact (Cache.same_getblk z).works
    · intro b hb hup
      apply hsame.uptodate
      rw [Cache.head_set_of_ne hb]
      exact (Cache.same_getblk z).uptodate b hup
    · intro hc
      apply hsame.coherent
      exact ((Cache.same_getblk z).coherent hc).set (fun hup => by cases hup) fun hd => by cases hd

/-- A used zone that nobody holds is given back. -/
theorem freeBlock_spec {z : Nat} (hz : s.Used z) (hheld : s.held z = 0) :
    Post (s.freeBlock z) (Freed s z) (fun _ => False) := by
  unfold freeBlock
  rw [if_neg (by have := hz.1; have := hz.2.1; omega)]
  refine Post.bind (forget_spec hheld) ?_
  rintro ⟨done, s'⟩ ⟨hdone, cache, hr, hcontents, hheld', hworks, hup, hcoherent⟩
  simp only at hdone hr
  rw [hdone, hr]
  simp only [if_pos]
  unfold clearBit
  simp only
  rw [if_pos hz.2.2]
  exact Post.ret ⟨rfl, hcontents, hheld', hworks, hup, hcoherent, rfl, rfl, rfl⟩

end Dev

end Linux011.Fs
