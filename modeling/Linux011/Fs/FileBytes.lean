import Linux011.Fs.FileDev
import Linux011.Fs.Truncate
import Linux011.Lib.Sparse

/-!
# A regular file is an array of bytes

`file_read` of `fs/file_dev.c` and `sys_read`, and what `sys_lseek`, `sys_read` and `file_write` on any number of
descriptors make of a file. The array is `Dev.file`, and `Behaves` says what the calls do to it. A write that finds
no room stores a part of its bytes.

Behind the end of the file are the bytes that a later write uncovers: zeroes in a block that is missing, and what
the block has where there is one.
-/

namespace Linux011.Fs

open Linux011.Lib

namespace Dev

/-- `bmap(inode,(filp->f_pos)/BLOCK_SIZE)` -/
def bmapAt (n : Nat) (block : Int) (s : Dev) : Except Panic (Nat × Dev) :=
  if block < 0 then .error "_bmap: block<0" else s.bmap n block.toNat

/-- The loop of `file_read`, with `left` bytes to read. The result is the bytes, and the position after them. -/
def readLoop (n : Nat) : (rounds : Nat) → Int → Nat → Dev → Except Panic (List UInt8 × Int × Dev)
  | 0, pos, _, s => .ok ([], pos, s)
  | rounds + 1, pos, left, s =>
    if left = 0 then .ok ([], pos, s)
    else do
      let (nr, s) ← s.bmapAt n (pos.tdiv 1024)
      let off := pos.tmod 1024
      let chars := min (1024 - off).toNat left
      if nr = 0 then do
        let (bytes, pos, s) ← readLoop n rounds (int32 (pos + chars)) (left - chars) s
        return (List.replicate chars 0 ++ bytes, pos, s)
      else do
        let (got, s) ← s.bread nr
        if got then do
          let here := (List.range chars).map fun i => (s.cache.head nr).data (off.toNat + i)
          let s ← s.brelse nr
          let (bytes, pos, s) ← readLoop n rounds (int32 (pos + chars)) (left - chars) s
          return (here ++ bytes, pos, s)
        else return ([], pos, s)

/-- `file_read` -/
def fileRead (n : Nat) (f : Desc) (count : Int) (s : Dev) : Except Panic (Int × List UInt8 × Desc × Dev) :=
  if count ≤ 0 then .ok (0, [], f, s)
  else do
    let (bytes, pos, s) ← readLoop n count.toNat f.fPos count.toNat s
    return (if bytes = [] then -eError else bytes.length, bytes, { f with fPos := pos }, s)

/-- `sys_read` on a regular file. The comparison is one of unsigned numbers. -/
def sysRead (n : Nat) (f : Desc) (count : Int) (s : Dev) : Except Panic (Int × List UInt8 × Desc × Dev) :=
  if count < 0 then .ok (-eInval, [], f, s)
  else if count = 0 then .ok (0, [], f, s)
  else
    let size := (s.inode n).iSize
    let count := if size < ((count + f.fPos) % 2 ^ 32).toNat then int32 (size - f.fPos) else count
    s.fileRead n f count

end Dev

/-- A regular file and its descriptors. -/
structure OpenFile (D : Type _) where
  dev : Dev
  desc : D → Desc

/-- A call on a descriptor, with the bytes that the user has at the buffer. -/
inductive FileOp (D : Type _) where
  | lseek (d : D) (offset : Int) (origin : Nat)
  | read (d : D) (count : Nat)
  | write (d : D) (bytes : List UInt8)

/-- What a call returns, and the bytes that it stores for the user. -/
structure Reply where
  result : Int
  bytes : List UInt8

namespace OpenFile

variable {D : Type _} [DecidableEq D]

def setDesc (d : D) (f : Desc) (v : OpenFile D) : OpenFile D := { v with desc := Function.update v.desc d f }

/-- A call on the file of inode `n`. -/
def call (n : Nat) (seekable : Bool) (v : OpenFile D) : FileOp D → Except Panic (Reply × OpenFile D)
  | .lseek d offset origin =>
    let r := v.dev.sysLseek n seekable (v.desc d) offset origin
    .ok (⟨r.1, []⟩, v.setDesc d r.2)
  | .read d count => do
    let (result, bytes, f, dev) ← v.dev.sysRead n (v.desc d) count
    return (⟨result, bytes⟩, { v.setDesc d f with dev })
  | .write d bytes => do
    let (result, f, dev) ← v.dev.fileWrite n (v.desc d) bytes
    return (⟨result, []⟩, { v.setDesc d f with dev })

end OpenFile

/-! ## The array -/

/-- The file of inode `n`. No file has bytes beyond the last block that `_bmap` knows. -/
def Dev.file (s : Dev) (n : Nat) : Sparse UInt8 :=
  ⟨(s.inode n).iSize, fun p => if p < Dev.maxSize then s.fileByte n p else 0⟩

/-- The array, and the positions in it. -/
structure FileView (D : Type _) where
  file : Sparse UInt8
  desc : D → Desc

namespace FileView

variable {D : Type _} [DecidableEq D]

def setPos (d : D) (pos : Nat) (v : FileView D) : FileView D :=
  { v with desc := Function.update v.desc d { v.desc d with fPos := pos } }

/-- What `lseek` counts from. -/
def origin (v : FileView D) (d : D) : Nat → Option Nat
  | 0 => some 0
  | 1 => some (v.desc d).fPos.toNat
  | 2 => some v.file.size
  | _ => none

/-- Where a write begins. -/
def start (v : FileView D) (d : D) : Nat := if (v.desc d).append then v.file.size else (v.desc d).fPos.toNat

/-- What the calls do to the array. -/
inductive Behaves (seekable : Bool) (v : FileView D) : FileOp D → Reply → FileView D → Prop
  | sought {d : D} {offset : Int} {origin base pos : Nat} (hseekable : seekable = true)
      (hbase : v.origin d origin = some base) (hpos : (pos : Int) = base + offset) (hlt : pos < 2 ^ 31) :
      Behaves seekable v (.lseek d offset origin) ⟨pos, []⟩ (v.setPos d pos)
  | notSought {d : D} {offset : Int} {origin : Nat} {error : Int} (herror : error = -eBadf ∨ error = -eInval)
      (hnot : seekable = true → ∀ base, v.origin d origin = some base →
        ¬ (0 ≤ base + offset ∧ base + offset < 2 ^ 31)) :
      Behaves seekable v (.lseek d offset origin) ⟨error, []⟩ v
  | read {d : D} {count k : Nat} (hk : k = min count (v.file.size - (v.desc d).fPos.toNat)) :
      Behaves seekable v (.read d count) ⟨k, v.file.read (v.desc d).fPos.toNat count⟩
        (v.setPos d ((v.desc d).fPos.toNat + k))
  | wrote {d : D} {bytes : List UInt8} {k : Nat} (hk : k ≤ bytes.length) :
      Behaves seekable v (.write d bytes) ⟨if k = 0 then -1 else k, []⟩
        { if (v.desc d).append then v else v.setPos d (v.start d + k) with
          file := v.file.write (v.start d) (bytes.take k) }

end FileView

def OpenFile.view {D : Type _} (n : Nat) (v : OpenFile D) : FileView D := ⟨v.dev.file n, v.desc⟩

/-! ## A file in order -/

/-- The zones of the file are in order, its size is within what `_bmap` knows, and requests for blocks succeed. -/
structure FileOk (tight : Prop) (zoned : Nat → Prop) (n : Nat) (s : Dev) : Prop where
  zones : ZoneInv tight zoned noDead s
  zoned : zoned n
  size : (s.inode n).iSize ≤ Dev.maxSize
  works : ∀ b, s.cache.works b = true

open Dev

variable {tight : Prop} {zoned : Nat → Prop} {s s' s₁ s₂ s₃ s₄ : Dev} {n : Nat}

theorem FileOk.readable (h : FileOk tight zoned n s) (b : Nat) : s.Readable b := .inr (h.works b)

/-- The caching of blocks has nothing to do with the file. -/
theorem FileOk.same (h : FileOk tight zoned n s) (hsame : Same s s') (hheld : s'.held = s.held) :
    FileOk tight zoned n s' where
  zones := h.zones.same hsame fun z _ hold => by rw [hheld, hold]
  zoned := h.zoned
  size := by
    rw [hsame.inode]
    exact h.size
  works b := by
    rw [hsame.cache.works]
    exact h.works b

theorem Dev.Same.file (h : Same s s') : s'.file n = s.file n := by
  unfold Dev.file
  rw [h.inode]
  congr 1
  funext p
  rw [h.fileByte]

/-! ## Reading -/

/-- `bread` and `brelse` of a block, with something done to the bytes in between. -/
theorem bread_got {b : Nat} (h : s.Readable b) :
    Post (s.bread b) (fun r => Same s r.2 ∧ r.1 = true ∧ (r.2.cache.head b).uptodate = true ∧
      r.2.held = Function.update s.held b (s.held b + 1)) (fun _ => False) := by
  refine (bread_spec b s).imp ?_
  rintro r ⟨hsame, ⟨hgot, hup, hheld⟩ | ⟨-, hbad, -⟩⟩
  · exact ⟨hsame, hgot, hup, hheld⟩
  · exact absurd h hbad

theorem brelse_back {b : Nat} (hheld : s₁.held = Function.update s.held b (s.held b + 1)) :
    Post (s₁.brelse b) (fun s₂ => Same s₁ s₂ ∧ s₂.held = s.held) (fun _ => False) := by
  have hone : s₁.held b = s.held b + 1 := by rw [hheld, Function.update_self]
  refine (brelse_spec hone).imp ?_
  rintro s₂ ⟨hsame, hback⟩
  exact ⟨hsame, by rw [hback, hheld, Function.update_idem, Function.update_eq_self]⟩

/-- An entry of an index block is looked up. -/
theorem entryZone_look {b k : Nat} (h : s.Readable b) (hb : b ≠ 0) :
    Post (s.entryZone false b k) (fun r => Same s r.2 ∧ r.2.held = s.held ∧ r.1 = s.entryOf b k)
      (fun _ => False) := by
  unfold Dev.entryZone
  refine Post.bind (bread_got h) ?_
  rintro ⟨got, s₁⟩ ⟨hsame, hgot, hup, hheld⟩
  cases hgot
  simp only [if_pos, Bool.false_eq_true, false_and, if_false]
  refine Post.bind (brelse_back hheld) ?_
  rintro s₂ ⟨hsame₂, hback⟩
  refine Post.ret ⟨hsame.trans hsame₂, hback, ?_⟩
  rw [entry_eq k hup, hsame.contents, Dev.entryOf, if_neg hb]

theorem inodeZone_look (i : Nat) : s.inodeZone false n i = .ok ((s.inode n).iZone i, s) := by
  unfold Dev.inodeZone
  rw [if_neg (by simp)]

/-- `bmap` finds the zone of a block. -/
theorem bmap_look {block : Nat} (h : ∀ p ∈ (Slot.ofBlock block).above, s.slotZone n p ≠ 0 → s.Readable (s.slotZone n p))
    (hblock : block < maxBlocks) :
    Post (s.bmap n block) (fun r => Same s r.2 ∧ r.2.held = s.held ∧ r.1 = s.slotZone n (Slot.ofBlock block))
      (fun _ => False) := by
  obtain ⟨hsl, -⟩ := Slot.ofBlock_valid hblock
  refine bmapCreate_rule (P := fun sl r => Same s r.2 ∧ r.2.held = s.held ∧ r.1 = s.slotZone n sl)
    rfl hblock (fun i _ => ?_) (fun p hp k hk s' hr => ?_) fun p hp k hk _ b s' hb hr => ?_
  · rw [inodeZone_look]
    exact Post.ret ⟨.refl s, rfl, rfl⟩
  · obtain ⟨hvalid, hindex⟩ := Slot.above_valid hsl hp
    obtain ⟨hsame, hheld, hzero⟩ := hr
    exact ⟨hsame, hheld, (slotZone_below (Slot.child_valid hindex hvalid hk).2 hzero.symm).symm⟩
  · obtain ⟨hvalid, hindex⟩ := Slot.above_valid hsl hp
    obtain ⟨hsame, hheld, hself⟩ := hr
    change b = s.slotZone n p at hself
    have hread : s'.Readable b := by
      rw [hself] at hb ⊢
      exact hsame.readable (h p hp hb)
    refine (entryZone_look hread hb).imp ?_
    rintro r ⟨hsame', hheld', hzone⟩
    refine ⟨hsame.trans hsame', hheld'.trans hheld, ?_⟩
    rw [hzone, slotZone_child hindex hvalid, hself]
    unfold Dev.entryOf
    rw [hsame.contents]

/-- The bytes of a file within one block. -/
theorem file_cells (pos c : Nat) {z : Nat} (hc : pos % 1024 + c ≤ 1024) (hend : pos + c ≤ maxSize)
    (hz : s.slotZone n (Slot.ofBlock (pos / 1024)) = z) : (s.file n).cells pos c =
      if z = 0 then List.replicate c 0 else (List.range c).map fun i => s.contents z (pos % 1024 + i) := by
  have hcell : ∀ i < c, (s.file n).cell (pos + i) = if z = 0 then 0 else s.contents z (pos % 1024 + i) := by
    intro i hi
    have hblock : (pos + i) / 1024 = pos / 1024 ∧ (pos + i) % 1024 = pos % 1024 + i := by omega
    show (if pos + i < maxSize then s.fileByte n (pos + i) else 0) = _
    rw [if_pos (by omega)]
    unfold Dev.fileByte
    rw [hblock.1, hblock.2, hz]
  unfold Sparse.cells
  split
  · next hzero =>
    refine List.eq_replicate_iff.mpr ⟨by simp, fun b hb => ?_⟩
    obtain ⟨i, hi, rfl⟩ := List.mem_map.mp hb
    rw [hcell i (List.mem_range.mp hi), if_pos hzero]
  · next hzero =>
    refine List.map_congr_left fun i hi => ?_
    rw [hcell i (List.mem_range.mp hi), if_neg hzero]

theorem bmapAt_look (h : ∀ b, s.cache.works b = true) {pos : Nat} (hpos : pos < maxSize) :
    Post (s.bmapAt n ((pos : Int).tdiv 1024))
      (fun r => Same s r.2 ∧ r.2.held = s.held ∧ r.1 = s.slotZone n (Slot.ofBlock (pos / 1024)))
      (fun _ => False) := by
  have hblock : (pos : Int).tdiv 1024 = (pos / 1024 : Nat) := (place_pos (by omega)).1
  unfold Dev.bmapAt
  rw [hblock, if_neg (by omega), Int.toNat_natCast]
  refine bmap_look (fun p _ _ => .inr (h _)) ?_
  unfold maxSize at hpos
  omega

/-- One block at most, from `pos` on. -/
theorem round_eq {pos count : Nat} (hend : pos + count ≤ maxSize) : ∃ c, c ≤ count ∧ pos % 1024 + c ≤ 1024 ∧
    (0 < count → 0 < c) ∧
    min (1024 - (pos : Int).tmod 1024).toNat count = c ∧ ((pos : Int).tmod 1024).toNat = pos % 1024 ∧
    int32 (pos + c) = (pos + c : Nat) := by
  have hmod : (pos : Int).tmod 1024 = (pos % 1024 : Nat) := (place_pos (by omega)).2
  have hlt : pos % 1024 < 1024 := Nat.mod_lt _ (by decide)
  refine ⟨min (1024 - pos % 1024) count, Nat.min_le_right .., by omega, fun h => Nat.lt_min.mpr ⟨by omega, h⟩, ?_, ?_, ?_⟩
  · rw [hmod]
    omega
  · rw [hmod, Int.toNat_natCast]
  · unfold maxSize maxBlocks at hend
    unfold int32
    rw [Int.bmod_eq_of_le] <;> omega

/-- The loop of `file_read` reads the file. -/
theorem readLoop_spec (n : Nat) : ∀ (rounds pos left : Nat) (s : Dev), FileOk tight zoned n s →
    pos + left ≤ maxSize → left ≤ rounds →
      Post (s.readLoop n rounds pos left) (fun r => r.1 = (s.file n).cells pos left ∧ r.2.1 = (pos + left : Nat) ∧
        Same s r.2.2 ∧ r.2.2.held = s.held) (fun _ => False)
  | 0, pos, left, s, _, _, hrounds => by
    obtain rfl : left = 0 := Nat.le_zero.mp hrounds
    exact Post.ret ⟨rfl, rfl, .refl s, rfl⟩
  | rounds + 1, pos, left, s, hok, hend, hrounds => by
    unfold Dev.readLoop
    split
    · next hzero =>
      rw [hzero]
      exact Post.ret ⟨rfl, rfl, .refl s, rfl⟩
    · next hleft =>
      obtain ⟨c, hle, hblock, hpos, hchars, hoff, hnext⟩ := round_eq hend
      simp only [hchars, hnext, hoff]
      clear hchars hoff hnext
      have hsplit : (s.file n).cells pos left = (s.file n).cells pos c ++ (s.file n).cells (pos + c) (left - c) := by
        have hsum : c + (left - c) = left := by omega
        rw [← Sparse.cells_add, hsum]
      refine Post.bind (bmapAt_look hok.works (by omega)) ?_
      rintro ⟨nr, s₁⟩ ⟨hsame, hheld, hnr⟩
      dsimp only at hsame hheld hnr ⊢
      have hcells := file_cells (s := s) (n := n) pos c (by omega) (by omega) hnr.symm
      have hok₁ := hok.same hsame hheld
      split
      · next hzero =>
        refine Post.bind (readLoop_spec n rounds (pos + c) (left - c) s₁ hok₁ (by omega) (by omega)) ?_
        rintro ⟨bytes, pos', s'⟩ ⟨hbytes, hpos', hsame', hheld'⟩
        dsimp only at hbytes hpos' hsame' hheld' ⊢
        refine Post.ret ⟨?_, ?_, hsame.trans hsame', hheld'.trans hheld⟩
        · rw [hsplit, hcells, if_pos hzero, hbytes, hsame.file]
        · show pos' = _
          rw [hpos']
          omega
      · next hzero =>
        refine Post.bind (bread_got (.inr (hok₁.works nr))) ?_
        rintro ⟨got, s₂⟩ ⟨hsame₂, hgot, hup, hheld₂⟩
        cases hgot
        dsimp only
        rw [if_pos rfl]
        refine Post.bind (brelse_back hheld₂) ?_
        rintro s₃ ⟨hsame₃, hheld₃⟩
        have hall := (hsame.trans hsame₂).trans hsame₃
        refine Post.bind (readLoop_spec n rounds (pos + c) (left - c) s₃ (hok.same hall (hheld₃.trans hheld))
          (by omega) (by omega)) ?_
        rintro ⟨bytes, pos', s'⟩ ⟨hbytes, hpos', hsame', hheld'⟩
        dsimp only at hbytes hpos' hsame' hheld' ⊢
        refine Post.ret ⟨?_, ?_, hall.trans hsame', (hheld'.trans hheld₃).trans hheld⟩
        · have hdata : (s₂.cache.head nr).data = s.contents nr := by
            rw [← hsame.contents, ← hsame₂.contents]
            exact (if_pos hup).symm
          rw [hsplit, hcells, if_neg hzero, hbytes, hall.file, hdata]
        · show pos' = _
          rw [hpos']
          omega

/-! ## Writing -/

theorem grow_size (n : Nat) {pos : Nat} (hpos : pos < 2 ^ 32) :
    ((s.grow n pos).inode n).iSize = max (s.inode n).iSize pos := by
  have hmod : ((pos : Int) % 2 ^ 32).toNat = pos := by omega
  unfold Dev.grow
  rw [hmod]
  split
  · next hlt =>
    show (Function.update s.inode n { s.inode n with iSize := pos } n).iSize = _
    rw [Function.update_self]
    exact (Nat.max_eq_right hlt.le).symm
  · next hge => exact (Nat.max_eq_left (Nat.le_of_not_lt hge)).symm

/-- `grow` changes nothing but the size. -/
theorem grow_rest (n : Nat) (pos : Int) : (s.grow n pos).cache = s.cache ∧ (s.grow n pos).super = s.super ∧
    (s.grow n pos).zmap = s.zmap ∧ ∀ m, ((s.grow n pos).inode m).iZone = (s.inode m).iZone := by
  unfold Dev.grow
  split
  · refine ⟨rfl, rfl, rfl, fun m => ?_⟩
    show (Function.update s.inode n _ m).iZone = _
    by_cases hm : m = n
    · rw [hm, Function.update_self]
    · rw [Function.update_of_ne hm]
  · exact ⟨rfl, rfl, rfl, fun _ => rfl⟩

/-- What one round of `file_write` does behind its `bread`. -/
structure Stored (n pos z : Nat) (l : List UInt8) (s s' : Dev) : Prop where
  contents : s'.contents = Function.update s.contents z (store ((pos % 1024 : Nat) : Int) l (s.contents z))
  held : s'.held = s.held
  works : s'.cache.works = s.cache.works
  coherent : s.cache.Coherent → s'.cache.Coherent
  super : s'.super = s.super
  zmap : s'.zmap = s.zmap
  zone : ∀ m, (s'.inode m).iZone = (s.inode m).iZone
  size : (s'.inode n).iSize = max (s.inode n).iSize (pos + l.length)

theorem stored (pos : Nat) {z : Nat} {l : List UInt8} (hend : pos + l.length < 2 ^ 32) (hread : Same s₁ s₂)
    (hup : (s₂.cache.head z).uptodate = true) (hheld : s₂.held = Function.update s₁.held z (s₁.held z + 1)) :
    Post (((s₂.grow n (pos + l.length : Nat)).modify z (store ((pos % 1024 : Nat) : Int) l)).brelse z)
      (Stored n pos z l s₁) (fun _ => False) := by
  obtain ⟨hcache, hsuper, hzmap, hzone⟩ := grow_rest (s := s₂) n (pos + l.length : Nat)
  have hwrote := Cache.modify_spec (c := (s₂.grow n (pos + l.length : Nat)).cache)
    (store ((pos % 1024 : Nat) : Int) l) (by rw [hcache]; exact hup)
  have hheld' : ((s₂.grow n (pos + l.length : Nat)).modify z (store ((pos % 1024 : Nat) : Int) l)).held =
      Function.update s₁.held z (s₁.held z + 1) := by
    refine Eq.trans hwrote.held ?_
    rw [hcache]
    exact hheld
  refine (brelse_back hheld').imp ?_
  rintro s' ⟨hlet, hback⟩
  refine ⟨?_, hback, ?_, fun hc => ?_, ?_, ?_, fun m => ?_, ?_⟩
  · rw [hlet.contents]
    refine Eq.trans hwrote.contents ?_
    rw [hcache]
    show Function.update s₂.contents z (store _ l (s₂.contents z)) = _
    rw [hread.contents]
  · rw [hlet.cache.works]
    refine Eq.trans hwrote.works ?_
    rw [hcache]
    exact hread.cache.works
  · refine hlet.cache.coherent (hwrote.coherent ?_)
    rw [hcache]
    exact hread.cache.coherent hc
  · rw [hlet.super]
    exact hsuper.trans hread.super
  · rw [hlet.zmap]
    exact hzmap.trans hread.zmap
  · rw [hlet.inode]
    exact (hzone m).trans (by rw [hread.inode])
  · rw [hlet.inode]
    refine Eq.trans (grow_size n hend) ?_
    rw [hread.inode]

theorem Stored.slot {pos z : Nat} {l : List UInt8} (h : FileOk tight zoned n s) (hs : Stored n pos z l s s')
    (hblock : pos / 1024 < maxBlocks) (hz : s.slotZone n (Slot.ofBlock (pos / 1024)) = z) {sl : Slot}
    (hsl : sl.Valid) : s'.slotZone n sl = s.slotZone n sl := by
  obtain ⟨hvalid, hdata⟩ := Slot.ofBlock_valid hblock
  refine h.zones.slot_data h.zoned hvalid hdata (fun b hb => ?_) (fun m _ => hs.zone m) h.zoned hsl
  rw [hs.contents, Function.update_of_ne (by rw [← hz]; exact hb)]

/-- The bytes that are stored. -/
theorem Stored.byte_new {pos z p : Nat} {l : List UInt8} (h : FileOk tight zoned n s) (hs : Stored n pos z l s s')
    (hl : pos % 1024 + l.length ≤ 1024) (hblock : pos / 1024 < maxBlocks)
    (hz : s.slotZone n (Slot.ofBlock (pos / 1024)) = z) (hzero : z ≠ 0) (hp : pos ≤ p ∧ p < pos + l.length) :
    s'.fileByte n p = l.getD (p - pos) 0 := by
  have hsame : p / 1024 = pos / 1024 := by omega
  have hoff : ((p % 1024 : Nat) - (pos % 1024 : Nat) : Int).toNat = p - pos := by omega
  unfold Dev.fileByte
  rw [hsame, hs.slot h hblock hz (Slot.ofBlock_valid hblock).1, hz]
  dsimp only
  rw [if_neg hzero, hs.contents, Function.update_self, store, if_pos (by omega), hoff]

/-- The other bytes are in another zone, or beside them. -/
theorem Stored.byte_old {pos z p : Nat} {l : List UInt8} (h : FileOk tight zoned n s) (hs : Stored n pos z l s s')
    (hblock : pos / 1024 < maxBlocks) (hz : s.slotZone n (Slot.ofBlock (pos / 1024)) = z)
    (hpblock : p / 1024 < maxBlocks) (hp : ¬ (pos ≤ p ∧ p < pos + l.length)) :
    s'.fileByte n p = s.fileByte n p := by
  have hvalid := (Slot.ofBlock_valid hpblock).1
  unfold Dev.fileByte
  rw [hs.slot h hblock hz hvalid]
  dsimp only
  by_cases hhole : s.slotZone n (Slot.ofBlock (p / 1024)) = 0
  · rw [if_pos hhole, if_pos hhole]
  · rw [if_neg hhole, if_neg hhole, hs.contents]
    by_cases hsame : p / 1024 = pos / 1024
    · rw [hsame, hz, Function.update_self, store, if_neg]
      rintro ⟨hlow, hhigh⟩
      omega
    · rw [Function.update_of_ne]
      intro heq
      have hinj := (h.zones.inj h.zoned h.zoned hvalid (Slot.ofBlock_valid hblock).1 hhole (heq.trans hz.symm)).2
      apply hsame
      unfold Slot.ofBlock at hinj
      grind

/-- A round stores its bytes into the file, and keeps the zones in order. -/
theorem Stored.file {pos z : Nat} {l : List UInt8} (h : FileOk tight zoned n s) (hs : Stored n pos z l s s')
    (hl : pos % 1024 + l.length ≤ 1024) (hend : pos + l.length ≤ maxSize) (hne : l ≠ [])
    (hz : s.slotZone n (Slot.ofBlock (pos / 1024)) = z) (hzero : z ≠ 0) :
    FileOk tight zoned n s' ∧ s'.file n = (s.file n).write pos l := by
  have hpos : 0 < l.length := List.length_pos_iff.mpr hne
  have hblocks : ∀ p, p < maxSize → p / 1024 < maxBlocks := by
    intro p hp
    unfold maxSize at hp
    omega
  have hblock := hblocks pos (by omega)
  obtain ⟨hvalid, hdata⟩ := Slot.ofBlock_valid hblock
  have hother : ∀ b ≠ s.slotZone n (Slot.ofBlock (pos / 1024)), s'.contents b = s.contents b := by
    intro b hb
    rw [hs.contents, Function.update_of_ne (by rw [← hz]; exact hb)]
  refine ⟨⟨?_, h.zoned, ?_, fun b => by rw [hs.works]; exact h.works b⟩, Sparse.ext ?_ (funext fun p => ?_)⟩
  · exact h.zones.wrote h.zoned hvalid hdata hother (fun m _ => hs.zone m) hs.super hs.zmap hs.held
      (hs.coherent h.zones.coherent)
  · rw [hs.size]
    exact Nat.max_le.mpr ⟨h.size, hend⟩
  · show (s'.inode n).iSize = if l = [] then _ else _
    rw [if_neg hne]
    exact hs.size
  · by_cases hp : pos ≤ p ∧ p < pos + l.length
    · have hcell : ((s.file n).write pos l).cell p = l.getD (p - pos) 0 := by
        show (if pos ≤ p then _ else _) = _
        rw [if_pos hp.1, List.getD_eq_getElem _ _ (by omega), List.getD_eq_getElem _ _ (by omega)]
      rw [hcell]
      show (if p < maxSize then s'.fileByte n p else 0) = _
      rw [if_pos (by omega), hs.byte_new h hl hblock hz hzero hp]
    · rw [Sparse.write_cell_of_notMem hp]
      show (if p < maxSize then s'.fileByte n p else 0) = if p < maxSize then s.fileByte n p else 0
      split
      · next hin => exact hs.byte_old h hblock hz (hblocks p hin) hp
      · rfl

/-- The loop of `file_write` writes what it has room for. -/
theorem writeLoop_spec (n : Nat) : ∀ (rounds pos : Nat) (bytes : List UInt8) (s : Dev), FileOk tight zoned n s →
    pos + bytes.length ≤ maxSize → bytes.length ≤ rounds →
      Post (s.writeLoop n rounds pos bytes) (fun r => r.1 ≤ bytes.length ∧ r.2.1 = (pos + r.1 : Nat) ∧
        FileOk tight zoned n r.2.2 ∧ r.2.2.file n = (s.file n).write pos (bytes.take r.1)) (fun _ => False)
  | 0, pos, bytes, s, hok, _, _ => Post.ret ⟨Nat.zero_le _, rfl, hok, by simp⟩
  | rounds + 1, pos, bytes, s, hok, hend, hrounds => by
    unfold Dev.writeLoop
    split
    · exact Post.ret ⟨Nat.zero_le _, rfl, hok, by simp⟩
    · next hne =>
      have hlen : 0 < bytes.length := List.length_pos_iff.mpr hne
      have hblock : pos / 1024 < maxBlocks := by
        unfold maxSize at hend
        omega
      -- one round: `c` bytes for the block of `pos`, the rest for the rounds behind it
      obtain ⟨c, hle, hfit, hpos, hchars, -, hnext⟩ := round_eq hend
      have hmod : (pos : Int).tmod 1024 = (pos % 1024 : Nat) := (place_pos (by omega)).2
      simp only [hchars, hnext]
      clear hchars hnext
      have hcreate : s.createAt n ((pos : Int).tdiv 1024) = s.createBlock n (pos / 1024) := by
        have hdiv : (pos : Int).tdiv 1024 = (pos / 1024 : Nat) := (place_pos (by omega)).1
        unfold Dev.createAt
        rw [hdiv, if_neg (by omega), Int.toNat_natCast]
      rw [hcreate]
      refine Post.bind (createBlock_spec hok.zones hok.zoned hblock) ?_
      rintro ⟨z, s₁⟩ ⟨hzones, hgrown, hheld, hz, -⟩
      dsimp only at hzones hgrown hheld hz ⊢
      have hfile : s₁.file n = s.file n := by
        refine Sparse.ext hgrown.size (funext fun p => ?_)
        show (if p < maxSize then s₁.fileByte n p else 0) = if p < maxSize then s.fileByte n p else 0
        split
        · next hp =>
          refine hgrown.file n p hok.zoned ?_
          unfold maxSize at hp
          omega
        · rfl
      have hok₁ : FileOk tight zoned n s₁ := by
        refine ⟨hzones, hok.zoned, ?_, fun b => by rw [hgrown.works]; exact hok.works b⟩
        exact hgrown.size.trans_le hok.size
      split
      · exact Post.ret ⟨Nat.zero_le _, rfl, hok₁, by rw [hfile]; simp⟩
      · next hzero =>
        refine Post.bind (bread_got (.inr (hok₁.works z))) ?_
        rintro ⟨got, s₂⟩ ⟨hread, hgot, hup, hheld₂⟩
        cases hgot
        dsimp only
        rw [if_pos rfl, hmod]
        have htake : (bytes.take c).length = c := by
          rw [List.length_take]
          omega
        have hstored := stored (n := n) pos (l := bytes.take c) (by
          rw [htake]
          unfold maxSize maxBlocks at hend
          omega) hread hup hheld₂
        rw [htake] at hstored
        refine Post.bind hstored ?_
        intro s₃ hs₃
        obtain ⟨hok₃, hfile₃⟩ := hs₃.file hok₁ (by rw [htake]; omega) (by rw [htake]; omega)
          (List.length_pos_iff.mp (by rw [htake]; omega)) (hz.resolve_left hzero).symm hzero
        refine Post.bind (writeLoop_spec n rounds (pos + c) (bytes.drop c) s₃ hok₃ ?_ ?_) ?_
        · rw [List.length_drop]
          omega
        · rw [List.length_drop]
          omega
        · rintro ⟨written, pos', s'⟩ ⟨hwritten, hpos', hok', hfile'⟩
          dsimp only at hwritten hpos' hok' hfile' ⊢
          rw [List.length_drop] at hwritten
          refine Post.ret ⟨?_, ?_, hok', ?_⟩
          · show c + written ≤ _
            omega
          · show pos' = _
            rw [hpos']
            show ((pos + c + written : Nat) : Int) = (pos + (c + written) : Nat)
            omega
          · show s'.file n = (s.file n).write pos (bytes.take (c + written))
            rw [hfile', hfile₃, hfile, List.take_add, Sparse.write_append, htake]

/-! ## The calls -/

theorem int32_of_lt {x : Int} (h : 0 ≤ x ∧ x < 2 ^ 31) : int32 x = x := by
  unfold int32
  rw [Int.bmod_eq_of_le] <;> omega

/-- A sum that is negative, or too large for an `off_t`, is a negative number. -/
theorem int32_neg {x : Int} (h : -2 ^ 31 ≤ x ∧ x < 2 ^ 32) (hnot : ¬ (0 ≤ x ∧ x < 2 ^ 31)) : int32 x < 0 := by
  unfold int32
  rw [Int.bmod_def]
  split <;> omega

theorem Desc.toNat_pos {f : Desc} (h : f.Ok) : { f with fPos := (f.fPos.toNat : Nat) } = f := by
  have hpos : ((f.fPos.toNat : Nat) : Int) = f.fPos := Int.toNat_of_nonneg h.1
  rw [hpos]

/-- `sys_read` reads to the end of the file. -/
theorem sysRead_spec {f : Desc} (h : FileOk tight zoned n s) (hf : f.Ok) {count k : Nat} (hcount : count < 2 ^ 31)
    (hk : k = min count ((s.inode n).iSize - f.fPos.toNat)) :
    Post (s.sysRead n f count) (fun r => r.1 = k ∧ r.2.1 = (s.file n).cells f.fPos.toNat k ∧
      r.2.2.1 = { f with fPos := (f.fPos.toNat + k : Nat) } ∧ Same s r.2.2.2 ∧ r.2.2.2.held = s.held)
      (fun _ => False) := by
  obtain ⟨pos, hpos⟩ : ∃ pos : Nat, f.fPos = pos := ⟨f.fPos.toNat, (Int.toNat_of_nonneg hf.1).symm⟩
  have hfit : pos < 2 ^ 31 := by
    have := hf.2
    omega
  have hsize : (s.inode n).iSize < 2 ^ 31 := by
    have := h.size
    unfold maxSize maxBlocks at this
    omega
  have htoNat : f.fPos.toNat = pos := by rw [hpos, Int.toNat_natCast]
  have hself : { f with fPos := (pos : Nat) } = f := by
    rw [← htoNat]
    exact Desc.toNat_pos hf
  rw [htoNat] at hk ⊢
  -- what `file_read` gets to read
  have hread : ∀ left : Int, left = k ∨ left ≤ 0 ∧ k = 0 →
      Post (s.fileRead n f left) (fun r => r.1 = k ∧ r.2.1 = (s.file n).cells pos k ∧
        r.2.2.1 = { f with fPos := (pos + k : Nat) } ∧ Same s r.2.2.2 ∧ r.2.2.2.held = s.held) (fun _ => False) := by
    intro left hleft
    unfold Dev.fileRead
    split
    · next hle =>
      obtain rfl : k = 0 := by omega
      exact Post.ret ⟨rfl, rfl, hself.symm, .refl s, rfl⟩
    · next hgt =>
      obtain rfl : left = k := by omega
      rw [Int.toNat_natCast, hpos]
      refine Post.bind (readLoop_spec n k pos k s h ?_ (Nat.le_refl k)) ?_
      · have := h.size
        omega
      · rintro ⟨bytes, pos', s'⟩ ⟨hbytes, hpos', hsame, hheld⟩
        dsimp only at hbytes hpos' hsame hheld ⊢
        have hne : bytes ≠ [] := by
          intro hnil
          have hlen := congrArg List.length hbytes
          rw [hnil, Sparse.length_cells] at hlen
          simp only [List.length_nil] at hlen
          omega
        refine Post.ret ⟨?_, hbytes, by rw [hpos'], hsame, hheld⟩
        rw [if_neg hne, hbytes, Sparse.length_cells]
  unfold Dev.sysRead
  rw [if_neg (by omega)]
  split
  · next hzero =>
    obtain rfl : k = 0 := by omega
    exact Post.ret ⟨rfl, rfl, hself.symm, .refl s, rfl⟩
  · next hpositive =>
    have hsum : ((count + f.fPos) % 2 ^ 32).toNat = count + pos := by
      rw [hpos]
      omega
    dsimp only
    rw [hsum]
    clear hsum htoNat
    refine hread _ ?_
    split
    · next hlong =>
      have hrange : int32 ((s.inode n).iSize - f.fPos) = (s.inode n).iSize - f.fPos := by
        rw [hpos]
        unfold int32
        rw [Int.bmod_eq_of_le] <;> omega
      rw [hrange, hpos]
      omega
    · left
      omega

/-- `file_write` writes from where the descriptor says. -/
theorem fileWrite_spec {f : Desc} (h : FileOk tight zoned n s) (hf : f.Ok) {bytes : List UInt8} {start : Nat}
    (hstart : start = if f.append then (s.inode n).iSize else f.fPos.toNat) (hend : start + bytes.length ≤ maxSize) :
    Post (s.fileWrite n f bytes) (fun r => ∃ k ≤ bytes.length, r.1 = (if k = 0 then -1 else (k : Int)) ∧
      r.2.1 = (if f.append then f else { f with fPos := (start + k : Nat) }) ∧ FileOk tight zoned n r.2.2 ∧
      r.2.2.file n = (s.file n).write start (bytes.take k)) (fun _ => False) := by
  have hpos : s.writePos n f = start := by
    unfold Dev.writePos
    rw [hstart]
    split
    · have := h.size
      unfold maxSize maxBlocks at this
      exact int32_of_lt (by omega)
    · exact (Int.toNat_of_nonneg hf.1).symm
  unfold Dev.fileWrite
  rw [hpos]
  refine Post.bind (writeLoop_spec n bytes.length start bytes s h hend (Nat.le_refl _)) ?_
  rintro ⟨written, pos, s'⟩ ⟨hle, hpos', hok, hfile⟩
  dsimp only at hle hpos' hok hfile ⊢
  exact Post.ret ⟨written, hle, rfl, by rw [hpos'], hok, hfile⟩

namespace OpenFile

variable {D : Type _} [DecidableEq D] {v v' : OpenFile D} {seekable : Bool}

/-- The arguments are C numbers, and a write stays below the end of the largest file. -/
def Fits (n : Nat) (v : OpenFile D) : FileOp D → Prop
  | .lseek _ offset _ => -2 ^ 31 ≤ offset ∧ offset < 2 ^ 31
  | .read _ count => count < 2 ^ 31
  | .write d bytes => (v.view n).start d + bytes.length ≤ maxSize

/-- The file is in order, and so are the positions. -/
structure Inv (tight : Prop) (zoned : Nat → Prop) (n : Nat) (v : OpenFile D) : Prop where
  file : FileOk tight zoned n v.dev
  desc : ∀ d, (v.desc d).Ok

theorem Inv.set (h : v.Inv tight zoned n) {d : D} {f : Desc} {dev : Dev} (hf : f.Ok)
    (hdev : FileOk tight zoned n dev) : { v.setDesc d f with dev }.Inv tight zoned n := by
  refine ⟨hdev, fun d' => ?_⟩
  show (Function.update v.desc d f d').Ok
  by_cases hd : d' = d
  · rw [hd, Function.update_self]
    exact hf
  · rw [Function.update_of_ne hd]
    exact h.desc d'

theorem setDesc_self (v : OpenFile D) (d : D) : v.setDesc d (v.desc d) = v := by
  unfold setDesc
  rw [Function.update_eq_self]

theorem lseek_behaves (seekable : Bool) (h : v.Inv tight zoned n) (d : D) {offset : Int} (origin : Nat)
    (hoffset : -2 ^ 31 ≤ offset ∧ offset < 2 ^ 31) :
    let r := v.dev.sysLseek n seekable (v.desc d) offset origin
    r.2.Ok ∧ (v.view n).Behaves seekable (.lseek d offset origin) ⟨r.1, []⟩ ((v.setDesc d r.2).view n) := by
  have hf := h.desc d
  obtain ⟨pos, hpos⟩ : ∃ pos : Nat, (v.desc d).fPos = pos := ⟨_, (Int.toNat_of_nonneg hf.1).symm⟩
  have hfit : pos < 2 ^ 31 := by
    have := hf.2
    omega
  have hsize : (v.dev.inode n).iSize < 2 ^ 31 := by
    have := h.file.size
    unfold maxSize maxBlocks at this
    omega
  -- the three origins differ in their base only
  have hbase : ∀ base : Nat, base < 2 ^ 31 → (v.view n).origin d origin = some base → seekable = true →
      ∀ r : Int × Desc, r = (if int32 (base + offset) < 0 then (-eInval, v.desc d)
        else (int32 (base + offset), { v.desc d with fPos := int32 (base + offset) })) →
      r.2.Ok ∧ (v.view n).Behaves seekable (.lseek d offset origin) ⟨r.1, []⟩ ((v.setDesc d r.2).view n) := by
    rintro base hlt horigin hseek r rfl
    by_cases hin : 0 ≤ base + offset ∧ base + offset < 2 ^ 31
    · obtain ⟨target, htarget⟩ : ∃ target : Nat, (target : Int) = base + offset := ⟨_, Int.toNat_of_nonneg hin.1⟩
      rw [int32_of_lt hin, if_neg (Int.not_lt.mpr hin.1), ← htarget]
      refine ⟨⟨by show (0 : Int) ≤ target; omega, by show (target : Int) < 2 ^ 31; omega⟩, ?_⟩
      exact .sought hseek horigin htarget (by omega)
    · rw [if_pos (int32_neg (by omega) hin)]
      refine ⟨hf, ?_⟩
      rw [setDesc_self]
      refine .notSought (.inr rfl) fun _ base' hbase' => ?_
      cases horigin.symm.trans hbase'
      exact hin
  unfold Dev.sysLseek
  cases hseek : seekable with
  | false =>
    refine ⟨hf, ?_⟩
    dsimp only
    rw [if_pos (by rfl), setDesc_self]
    exact .notSought (.inl rfl) fun hfalse => by cases hfalse
  | true =>
    subst hseek
    rw [if_neg (by simp)]
    match origin with
    | 0 =>
      refine hbase 0 (by decide) rfl rfl _ ?_
      have hzero : ((0 : Nat) : Int) + offset = offset := by omega
      rw [hzero]
      show (if offset < 0 then _ else _) = _
      by_cases hneg : offset < 0
      · rw [if_pos hneg, if_pos (int32_neg (by omega) (by omega))]
      · rw [if_neg hneg, int32_of_lt (by omega), if_neg hneg]
    | 1 =>
      refine hbase pos hfit ?_ rfl _ ?_
      · show some (v.desc d).fPos.toNat = _
        rw [hpos, Int.toNat_natCast]
      · rw [← hpos]
        rfl
    | 2 => exact hbase _ hsize rfl rfl _ rfl
    | origin + 3 =>
      refine ⟨hf, ?_⟩
      show (v.view n).Behaves true _ ⟨-eInval, []⟩ ((v.setDesc d (v.desc d)).view n)
      rw [setDesc_self]
      exact .notSought (.inr rfl) fun _ base hnone => by cases hnone

/-- Every call returns, does to the array what it should, and leaves the file in order. -/
theorem Inv.call (h : v.Inv tight zoned n) {op : FileOp D} (hfits : v.Fits n op) :
    Post (v.call n seekable op)
      (fun r => r.2.Inv tight zoned n ∧ (v.view n).Behaves seekable op r.1 (r.2.view n)) (fun _ => False) := by
  cases op with
  | lseek d offset origin =>
    obtain ⟨hok, hbehaves⟩ := lseek_behaves (n := n) seekable h d origin hfits
    exact Post.ret ⟨h.set hok h.file, hbehaves⟩
  | read d count =>
    refine Post.bind (sysRead_spec h.file (h.desc d) hfits rfl) ?_
    rintro ⟨result, bytes, f, dev⟩ ⟨hresult, hbytes, hf, hsame, hheld⟩
    dsimp only at hresult hbytes hf hsame hheld ⊢
    rw [hresult, hbytes, hf]
    have hfile : dev.file n = v.dev.file n := hsame.file
    refine Post.ret ⟨h.set ?_ (h.file.same hsame hheld), ?_⟩
    · have hpos := (h.desc d).2
      have hsize := h.file.size
      unfold maxSize maxBlocks at hsize
      refine ⟨?_, ?_⟩
      · show (0 : Int) ≤ (_ : Nat)
        omega
      · show ((_ : Nat) : Int) < _
        omega
    · have hview : OpenFile.view n { v.setDesc d { v.desc d with fPos := ((v.desc d).fPos.toNat +
          min count ((v.dev.inode n).iSize - (v.desc d).fPos.toNat) : Nat) } with dev } =
          (v.view n).setPos d ((v.desc d).fPos.toNat + min count ((v.dev.inode n).iSize - (v.desc d).fPos.toNat)) := by
        unfold OpenFile.view
        dsimp only
        rw [hfile]
        rfl
      rw [hview]
      exact .read rfl
  | write d bytes =>
    obtain ⟨start, hstart⟩ : ∃ start, start = (v.view n).start d := ⟨_, rfl⟩
    have hend : start + bytes.length ≤ maxSize := hstart ▸ hfits
    refine Post.bind (fileWrite_spec h.file (h.desc d) hstart hend) ?_
    rintro ⟨result, f, dev⟩ ⟨k, hk, hresult, hf, hok, hfile⟩
    dsimp only at hresult hf hok hfile ⊢
    have hset : f.Ok := by
      rw [hf]
      split
      · exact h.desc d
      · unfold maxSize maxBlocks at hend
        exact ⟨by show (0 : Int) ≤ (start + k : Nat); omega, by show ((start + k : Nat) : Int) < 2 ^ 31; omega⟩
    have hview : OpenFile.view n { v.setDesc d f with dev } =
        { if (v.desc d).append then v.view n else (v.view n).setPos d (start + k) with
          file := (v.view n).file.write start (bytes.take k) } := by
      unfold OpenFile.view
      dsimp only
      rw [hfile, hf]
      by_cases happ : (v.desc d).append = true
      · rw [if_pos happ, if_pos happ, setDesc_self]
      · rw [if_neg happ, if_neg happ]
        rfl
    refine Post.ret ⟨h.set hset hok, ?_⟩
    rw [hview, hresult, hstart]
    exact .wrote hk

/-- A call of a run, or a buffer that is written back or reused meanwhile. -/
inductive Step (n : Nat) (seekable : Bool) (v : OpenFile D) : OpenFile D → Prop
  | call {op : FileOp D} {reply : Reply} {v' : OpenFile D} (hfits : v.Fits n op)
      (hcall : v.call n seekable op = .ok (reply, v')) : Step n seekable v v'
  | cache {c : Cache} (h : Cache.Background v.dev.cache c) :
      Step n seekable v { v with dev := { v.dev with cache := c } }

omit [DecidableEq D] in
theorem Inv.cache (h : v.Inv tight zoned n) {c : Cache} (hc : Cache.Quiet v.dev.cache c) :
    OpenFile.Inv tight zoned n { v with dev := { v.dev with cache := c } } :=
  ⟨⟨h.file.zones.quiet hc, h.file.zoned, h.file.size, fun b => by rw [hc.works]; exact h.file.works b⟩, h.desc⟩

end OpenFile

end Linux011.Fs
