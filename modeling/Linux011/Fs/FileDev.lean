import Linux011.Fs.FileTable
import Linux011.Fs.Inode

/-!
# fs/file_dev.c

`file_write` for a regular file, and the calls that lead to it: `sys_lseek` and `sys_write` of
`fs/read_write.c`. A position is an `off_t`, a signed 32-bit number, and `_bmap` gets its block as an
`int`.

The largest file has `7 + 512 + 512 * 512` blocks. Nothing keeps a position below its end but the panic
of `_bmap`.
-/

namespace Linux011.Fs

open Linux011.Lib

/-- A signed number of 32 bits. -/
def int32 (x : Int) : Int := Int.bmod x (2 ^ 32)

/-- `O_APPEND` -/
def oAppend : BitVec 16 := 0o2000

/-- A descriptor of a regular file. -/
structure Desc where
  fPos : Int
  append : Bool

/-- Positions are not negative. -/
def Desc.Ok (f : Desc) : Prop := 0 ≤ f.fPos ∧ f.fPos < 2 ^ 31

namespace Dev

/-- `create_block(inode,pos/BLOCK_SIZE)` -/
def createAt (n : Nat) (block : Int) (s : Dev) : Except Panic (Nat × Dev) :=
  if block < 0 then .error "_bmap: block<0" else s.createBlock n block.toNat

/-- The bytes of a block after `bytes` were stored from offset `off` on. Before the first byte, which an
offset below zero is, lies other memory. -/
def store (off : Int) (bytes : List UInt8) (data : Nat → UInt8) (i : Nat) : UInt8 :=
  if off ≤ i ∧ (i : Int) < off + bytes.length then bytes.getD (i - off).toNat 0 else data i

/-- `if (pos > inode->i_size)`, which is a comparison of unsigned numbers. -/
def grow (n : Nat) (pos : Int) (s : Dev) : Dev :=
  if (s.inode n).iSize < (pos % 2 ^ 32).toNat then
    s.setInode n { s.inode n with iSize := (pos % 2 ^ 32).toNat }
  else s

/-- The loop of `file_write`, with `bytes` still to write. The result is how many were written, and the
position after them. A round writes a byte at least, so that there are no more rounds than bytes. -/
def writeLoop (n : Nat) : (rounds : Nat) → Int → List UInt8 → Dev → Except Panic (Nat × Int × Dev)
  | 0, pos, _, s => .ok (0, pos, s)
  | rounds + 1, pos, bytes, s =>
    if bytes = [] then .ok (0, pos, s)
    else do
      let (block, s) ← s.createAt n (pos.tdiv 1024)
      if block = 0 then return (0, pos, s)
      else do
        let (got, s) ← s.bread block
        if got then do
          let off := pos.tmod 1024
          let c := min (1024 - off).toNat bytes.length
          let pos := int32 (pos + c)
          let s := (s.grow n pos).modify block (store off (bytes.take c))
          let s ← s.brelse block
          let (written, pos, s) ← writeLoop n rounds pos (bytes.drop c) s
          return (c + written, pos, s)
        else return (0, pos, s)

/-- Where a write begins. -/
def writePos (n : Nat) (f : Desc) (s : Dev) : Int :=
  if f.append then int32 (s.inode n).iSize else f.fPos

/-- `file_write` -/
def fileWrite (n : Nat) (f : Desc) (bytes : List UInt8) (s : Dev) : Except Panic (Int × Desc × Dev) := do
  let (written, pos, s) ← writeLoop n bytes.length (s.writePos n f) bytes s
  return (if written = 0 then -1 else written, if f.append then f else { f with fPos := pos }, s)

/-- `sys_write` on a regular file; `count` is the number of bytes. -/
def sysWrite (n : Nat) (f : Desc) (bytes : List UInt8) (s : Dev) : Except Panic (Int × Desc × Dev) :=
  if bytes = [] then .ok (0, f, s) else s.fileWrite n f bytes

/-- `sys_lseek` on a regular file of a device that is seekable or not. -/
def sysLseek (n : Nat) (seekable : Bool) (f : Desc) (offset : Int) (origin : Nat) (s : Dev) : Int × Desc :=
  if !seekable then (-eBadf, f)
  else
    match origin with
    | 0 => if offset < 0 then (-eInval, f) else (offset, { f with fPos := offset })
    | 1 =>
      if int32 (f.fPos + offset) < 0 then (-eInval, f)
      else (int32 (f.fPos + offset), { f with fPos := int32 (f.fPos + offset) })
    | 2 =>
      let tmp := int32 ((s.inode n).iSize + offset)
      if tmp < 0 then (-eInval, f) else (tmp, { f with fPos := tmp })
    | _ => (-eInval, f)

/-! ## The panics of `_bmap` -/

/-- The texts of the panics of `_bmap`. -/
def OutOfRange (text : Panic) : Prop := text = "_bmap: block>big" ∨ text = "_bmap: block<0"

instance (text : Panic) : Decidable (OutOfRange text) := inferInstanceAs (Decidable (_ ∨ _))

/-- The end of the largest file. -/
def maxSize : Nat := 1024 * maxBlocks

/-- All bytes of a write lie in the largest file. -/
def Below (pos : Int) (count : Nat) : Prop := -1024 < pos ∧ pos + count ≤ maxSize

variable {n block : Nat} {s s' : Dev} {f f' : Desc} {bytes : List UInt8} {pos : Int}

theorem brelse_panics (b : Nat) (s : Dev) :
    Post (s.brelse b) (fun _ => True) fun text => ¬ OutOfRange text := by
  unfold brelse Cache.brelse
  split
  · exact Post.stop (by decide)
  · exact Post.ret trivial

theorem bread_panics (b : Nat) (s : Dev) :
    Post (s.bread b) (fun _ => True) fun text => ¬ OutOfRange text :=
  (bread_spec b s).mono (fun _ _ => trivial) fun _ h => h.elim

theorem newBlock_panics (s : Dev) : Post s.newBlock (fun _ => True) fun text => ¬ OutOfRange text := by
  unfold newBlock
  split
  · exact Post.ret trivial
  · split
    · exact Post.stop (by decide)
    · simp only
      split
      · exact Post.ret trivial
      · unfold newZone
        simp only
        split
        · exact Post.stop (by decide)
        · unfold Cache.brelse
          split
          · exact Post.stop (by decide)
          · exact Post.ret trivial

theorem inodeZone_panics (create : Bool) (n k : Nat) (s : Dev) :
    Post (s.inodeZone create n k) (fun _ => True) fun text => ¬ OutOfRange text := by
  unfold inodeZone
  split
  · refine (newBlock_panics s).bind fun r _ => ?_
    simp only
    split <;> exact Post.ret trivial
  · exact Post.ret trivial

theorem entryZone_panics (create : Bool) (b k : Nat) (s : Dev) :
    Post (s.entryZone create b k) (fun _ => True) fun text => ¬ OutOfRange text := by
  refine (bread_panics b s).bind fun r _ => ?_
  simp only
  split
  · split
    · refine (newBlock_panics r.2).bind fun r' _ => ?_
      exact (brelse_panics b _).bind fun _ _ => Post.ret trivial
    · exact (brelse_panics b _).bind fun _ _ => Post.ret trivial
  · exact Post.ret trivial

/-- `create_block` stops for a block of the file only if something else is wrong. -/
theorem createBlock_panics (h : block < maxBlocks) (n : Nat) (s : Dev) :
    Post (s.createBlock n block) (fun _ => True) fun text => ¬ OutOfRange text :=
  bmapCreate_rule (P := fun _ _ => True) rfl h (fun i _ => inodeZone_panics true n i s) (fun _ _ _ _ _ _ => trivial)
    fun _ _ k _ _ b s' _ _ => entryZone_panics true b k s'

/-- `create_block` returns for blocks of the file only. -/
theorem createAt_range {block : Int} {r : Nat × Dev} (h : s.createAt n block = .ok r) :
    0 ≤ block ∧ block < maxBlocks := by
  unfold createAt at h
  split at h
  · cases h
  · next hpos =>
    unfold createBlock bmapCreate at h
    split at h
    · cases h
    · omega

theorem createAt_panics {block : Int} (h : 0 ≤ block ∧ block < maxBlocks) (n : Nat) (s : Dev) :
    Post (s.createAt n block) (fun _ => True) fun text => ¬ OutOfRange text := by
  unfold createAt
  rw [if_neg (Int.not_lt.mpr h.1)]
  exact createBlock_panics (by omega) n s

/-! ## The loop -/

/-- Division rounds towards zero. -/
theorem place_neg (h : pos < 0) :
    pos.tdiv 1024 = -((-pos) / 1024) ∧ pos.tmod 1024 = -((-pos) % 1024) := by
  obtain ⟨k, rfl⟩ : ∃ k, pos = -k := ⟨-pos, (Int.neg_neg pos).symm⟩
  rw [Int.neg_tdiv, Int.neg_tmod, Int.neg_neg, Int.tdiv_eq_ediv_of_nonneg (by omega),
    Int.tmod_eq_emod_of_nonneg (by omega)]
  exact ⟨rfl, rfl⟩

theorem place_pos (h : 0 ≤ pos) : pos.tdiv 1024 = pos / 1024 ∧ pos.tmod 1024 = pos % 1024 :=
  ⟨Int.tdiv_eq_ediv_of_nonneg h, Int.tmod_eq_emod_of_nonneg h⟩

/-- The positions in blocks of the file. -/
theorem block_range :
    (0 ≤ pos.tdiv 1024 ∧ pos.tdiv 1024 < maxBlocks) ↔ -1024 < pos ∧ pos < maxSize := by
  unfold maxSize
  rcases Int.lt_or_le pos 0 with hneg | hpos
  · rw [(place_neg hneg).1]
    unfold maxBlocks
    omega
  · rw [(place_pos hpos).1]
    omega

/-- What the next round writes, at most to the end of its block, and at least a byte. -/
theorem round_length (hpos : -1024 < pos ∧ pos < maxSize) (count : Nat) {c : Nat}
    (hc : c = min (1024 - pos.tmod 1024).toNat count) :
    (0 < count → 0 < c) ∧ c ≤ count ∧ pos + c ≤ maxSize ∧ int32 (pos + c) = pos + c := by
  have hend : pos + c ≤ maxSize ∧ (0 < count → 0 < c) := by
    unfold maxSize at hpos ⊢
    rcases Int.lt_or_le pos 0 with hneg | hle
    · rw [(place_neg hneg).2] at hc
      unfold maxBlocks
      omega
    · rw [(place_pos hle).2] at hc
      omega
  refine ⟨hend.2, by omega, hend.1, ?_⟩
  obtain ⟨hlast, -⟩ := hend
  unfold maxSize maxBlocks at hlast
  unfold int32
  apply Int.bmod_eq_of_le <;> omega

/-- A write of which all bytes lie in the largest file does not leave it. -/
theorem writeLoop_below (n : Nat) : ∀ (rounds : Nat) (pos : Int) (bytes : List UInt8) (s : Dev),
    Below pos bytes.length →
      Post (writeLoop n rounds pos bytes s) (fun _ => True) fun text => ¬ OutOfRange text
  | 0, _, _, _, _ => Post.ret trivial
  | rounds + 1, pos, bytes, s, hbelow => by
    unfold writeLoop
    split
    · exact Post.ret trivial
    · next hne =>
      have hlen : 0 < bytes.length := List.length_pos_iff.mpr hne
      unfold Below maxSize at hbelow
      have hrange : -1024 < pos ∧ pos < maxSize := ⟨hbelow.1, by unfold maxSize; omega⟩
      refine (createAt_panics (block_range.mpr hrange) n s).bind fun r _ => ?_
      simp only
      split
      · exact Post.ret trivial
      · refine (bread_panics _ _).bind fun r' _ => ?_
        split
        · refine (brelse_panics _ _).bind fun s' _ => ?_
          refine Post.bind (writeLoop_below n rounds _ _ _ ?_) fun _ _ => Post.ret trivial
          obtain ⟨-, hle, -, hnext⟩ := round_length hrange bytes.length rfl
          unfold Below maxSize
          rw [hnext, List.length_drop]
          omega
        · exact Post.ret trivial

/-- What a write returns: it has written no more than it was given, it ends where it has come to, and it
is complete only if all its bytes lie in the largest file. -/
theorem writeLoop_ok (n : Nat) : ∀ (rounds : Nat) (pos : Int) (bytes : List UInt8) (s s' : Dev)
    (written : Nat) (pos' : Int), writeLoop n rounds pos bytes s = .ok (written, pos', s') →
      bytes.length ≤ rounds →
      written ≤ bytes.length ∧ pos' = pos + written ∧ (written ≠ 0 → Below pos written) ∧
        (bytes ≠ [] → written = bytes.length → Below pos bytes.length)
  | 0, pos, bytes, s, s', written, pos', hok, hrounds => by
    cases hok
    have hnil : bytes = [] := List.length_eq_zero_iff.mp (Nat.le_zero.mp hrounds)
    exact ⟨Nat.zero_le _, by simp, fun h => absurd rfl h, fun h => absurd hnil h⟩
  | rounds + 1, pos, bytes, s, s', written, pos', hok, hrounds => by
    unfold writeLoop at hok
    split at hok
    · next hnil =>
      cases hok
      exact ⟨Nat.zero_le _, by simp, fun h => absurd rfl h, fun h => absurd hnil h⟩
    · next hne =>
      have hlen : 0 < bytes.length := List.length_pos_iff.mpr hne
      have hshort : (0 : Nat) ≤ bytes.length ∧ pos = pos + (0 : Nat) ∧ ((0 : Nat) ≠ 0 → Below pos 0) ∧
          (bytes ≠ [] → 0 = bytes.length → Below pos bytes.length) :=
        ⟨Nat.zero_le _, by simp, fun h => absurd rfl h, fun _ h => absurd h (Nat.ne_of_lt hlen)⟩
      obtain ⟨⟨block, s₁⟩, hcreate, hok⟩ := ok_of_bind hok
      have hrange := block_range.mp (createAt_range hcreate)
      by_cases hz : block = 0
      · simp only [hz, if_true] at hok
        cases hok
        exact hshort
      simp only [hz, if_false] at hok
      obtain ⟨⟨got, s₂⟩, hread, hok⟩ := ok_of_bind hok
      cases got with
      | false =>
        cases hok
        exact hshort
      | true =>
        obtain ⟨s₃, hrel, hok⟩ := ok_of_bind hok
        obtain ⟨⟨written₀, pos₀, s₄⟩, hloop, hok⟩ := ok_of_bind hok
        cases hok
        obtain ⟨hpos, hle, hend, hnext⟩ := round_length hrange bytes.length rfl
        have hpos := hpos hlen
        rw [hnext] at hloop
        obtain ⟨hwritten, hat, hbelow, hfull⟩ := writeLoop_ok n rounds _ _ _ _ _ _ hloop (by
          rw [List.length_drop]
          omega)
        rw [List.length_drop] at hwritten hfull
        -- The bytes of this round lie below the end, those of the further rounds by the induction.
        have hall : Below pos (min (1024 - pos.tmod 1024).toNat bytes.length + written₀) := by
          by_cases hz : written₀ = 0
          · rw [hz]
            exact ⟨hrange.1, hend⟩
          · obtain ⟨-, hlast⟩ := hbelow hz
            exact ⟨hrange.1, by omega⟩
        refine ⟨by omega, by rw [hat, Int.natCast_add, Int.add_assoc], fun _ => hall, fun _ hcount => ?_⟩
        rw [hcount] at hall
        exact hall

/-! ## A descriptor over a run -/

/-- What can happen while a regular file is open: `sys_lseek` and `sys_write` on the descriptor, and to the
device whatever other descriptors and other tasks do. -/
inductive FileStep (n : Nat) (seekable : Bool) : Dev × Desc → Dev × Desc → Prop
  | lseek {s : Dev} {f : Desc} (offset : Int) (origin : Nat) (hoffset : -2 ^ 31 ≤ offset ∧ offset < 2 ^ 31) :
      FileStep n seekable (s, f) (s, (s.sysLseek n seekable f offset origin).2)
  | write {s s' : Dev} {f f' : Desc} {bytes : List UInt8} {result : Int} (hcount : bytes.length < 2 ^ 31)
      (hok : s.sysWrite n f bytes = .ok (result, f', s')) : FileStep n seekable (s, f) (s', f')
  | others {s s' : Dev} {f : Desc} : FileStep n seekable (s, f) (s', f)

theorem int32_lt (x : Int) : int32 x < 2 ^ 31 :=
  by
  have h : x.bmod (2 ^ 32) < (2 ^ 32 + 1) / 2 := Int.bmod_lt (by decide)
  unfold int32
  omega

/-- `lseek` sets a position only if it is not negative. -/
theorem sysLseek_ok (hf : f.Ok) {offset : Int} (hoffset : offset < 2 ^ 31) (n : Nat) (seekable : Bool)
    (origin : Nat) (s : Dev) : (s.sysLseek n seekable f offset origin).2.Ok := by
  unfold sysLseek
  split
  · exact hf
  · split
    · split
      · exact hf
      · next hneg => exact ⟨Int.not_lt.mp hneg, hoffset⟩
    · split
      · exact hf
      · next hneg => exact ⟨Int.not_lt.mp hneg, int32_lt _⟩
    · simp only
      split
      · exact hf
      · next hneg => exact ⟨Int.not_lt.mp hneg, int32_lt _⟩
    · exact hf

/-- What `sys_write` returns. -/
theorem sysWrite_ok {result : Int} (hf : f.Ok) (hok : s.sysWrite n f bytes = .ok (result, f', s')) :
    f'.Ok ∧ (result = -1 ∨ 0 ≤ result ∧ result ≤ bytes.length) ∧
      (bytes ≠ [] → result = bytes.length → Below (s.writePos n f) bytes.length) := by
  unfold sysWrite at hok
  split at hok
  · next hnil =>
    cases hok
    exact ⟨hf, Or.inr ⟨Int.le_refl _, Int.natCast_nonneg _⟩, fun hne => absurd hnil hne⟩
  · obtain ⟨⟨written, pos, s₁⟩, hloop, hok⟩ := ok_of_bind hok
    cases hok
    obtain ⟨hle, hat, hbelow, hfull⟩ := writeLoop_ok n _ _ _ _ _ _ _ hloop (Nat.le_refl _)
    refine ⟨?_, ?_, fun hne hall => ?_⟩
    · cases happ : f.append with
      | true => exact hf
      | false =>
        unfold writePos at hat hbelow
        rw [happ] at hat hbelow
        obtain ⟨hpos, hlast⟩ := hf
        show 0 ≤ pos ∧ pos < 2 ^ 31
        by_cases hz : written = 0
        · rw [hat, hz]
          exact ⟨by simpa using hpos, by simpa using hlast⟩
        · obtain ⟨-, hend⟩ := hbelow hz
          rw [hat]
          unfold maxSize maxBlocks at hend
          simp only [Bool.false_eq_true, if_false] at hend ⊢
          omega
    · split
      · exact Or.inl rfl
      · exact Or.inr ⟨Int.natCast_nonneg _, Int.ofNat_le.mpr hle⟩
    · have hlen : 0 < bytes.length := List.length_pos_iff.mpr hne
      refine hfull hne ?_
      split at hall
      · omega
      · exact Int.ofNat_inj.mp hall

theorem sysWrite_below (h : bytes = [] ∨ Below (s.writePos n f) bytes.length) :
    Post (s.sysWrite n f bytes) (fun _ => True) fun text => ¬ OutOfRange text := by
  unfold sysWrite
  split
  · exact Post.ret trivial
  · next hne =>
    exact (writeLoop_below n _ _ _ s (h.resolve_left hne)).bind fun _ _ => Post.ret trivial

/-- A write that begins outside of the largest file stops at once. -/
theorem sysWrite_outside (hne : bytes ≠ []) (h : ¬ (-1024 < s.writePos n f ∧ s.writePos n f < maxSize)) :
    ∃ text, s.sysWrite n f bytes = .error text ∧ OutOfRange text := by
  obtain ⟨rounds, hrounds⟩ := Nat.exists_eq_succ_of_ne_zero (Nat.ne_of_gt (List.length_pos_iff.mpr hne))
  have hcreate : ∃ text, s.createAt n ((s.writePos n f).tdiv 1024) = .error text ∧ OutOfRange text := by
    rw [← block_range] at h
    unfold createAt
    split
    · exact ⟨_, rfl, Or.inr rfl⟩
    · unfold createBlock bmapCreate
      rw [if_pos (by omega)]
      exact ⟨_, rfl, Or.inl rfl⟩
  obtain ⟨text, hcreate, hout⟩ := hcreate
  refine ⟨text, ?_, hout⟩
  unfold sysWrite fileWrite
  rw [if_neg hne, hrounds]
  unfold writeLoop
  rw [if_neg hne, hcreate]
  rfl

variable {seekable : Bool}

/-- The positions a descriptor can have. -/
theorem fileStep_ok {σ σ' : Dev × Desc} (hf : σ.2.Ok) (hstep : FileStep n seekable σ σ') : σ'.2.Ok := by
  cases hstep with
  | lseek _ _ hoffset => exact sysLseek_ok hf hoffset.2 n seekable _ _
  | write _ hok => exact (sysWrite_ok hf hok).1
  | others => exact hf

/-- In every run from the `open` of the file, a write does not leave the largest file if it begins in it
and all its bytes lie in it, and then it returns a count or an error. A write that begins outside of it
stops in `_bmap`, and one that only ends outside of it is not complete. -/
theorem write_stays_below {append : Bool} {s₀ : Dev}
    (hrun : Relation.ReflTransGen (FileStep n seekable) (s₀, ⟨0, append⟩) (s, f)) (bytes : List UInt8) :
    f.Ok ∧
      (bytes = [] ∨ Below (s.writePos n f) bytes.length →
        Post (s.sysWrite n f bytes) (fun r => r.1 = -1 ∨ 0 ≤ r.1 ∧ r.1 ≤ bytes.length)
          fun text => ¬ OutOfRange text) ∧
      (bytes ≠ [] → ¬ (-1024 < s.writePos n f ∧ s.writePos n f < maxSize) →
        ∃ text, s.sysWrite n f bytes = .error text ∧ OutOfRange text) ∧
      (bytes ≠ [] → ¬ Below (s.writePos n f) bytes.length →
        Post (s.sysWrite n f bytes) (fun r => r.1 < bytes.length) fun _ => True) := by
  have hf : f.Ok := invariant_of_run (I := fun σ => Desc.Ok σ.2) (fun _ _ => fileStep_ok)
    ⟨Int.le_refl _, show (0 : Int) < 2 ^ 31 by decide⟩ hrun
  refine ⟨hf, fun h => ⟨?_, (sysWrite_below h).of_error⟩, sysWrite_outside, fun hne hnot => ⟨?_, ?_⟩⟩
  · rintro ⟨result, f', s'⟩ hok
    exact (sysWrite_ok hf hok).2.1
  · rintro ⟨result, f', s'⟩ hok
    obtain ⟨-, hresult, hfull⟩ := sysWrite_ok hf hok
    rcases hresult with hone | ⟨-, hle⟩
    · show result < _
      omega
    · exact Int.lt_iff_le_and_ne.mpr ⟨hle, fun heq => hnot (hfull hne heq)⟩
  · exact fun _ _ => trivial

/-- A disk with an empty file, its inode 1. -/
def emptyFile : Dev where
  cache := { buffer := fun _ => none, disk := fun _ _ => 0, works := fun _ => true, recycled := fun _ _ => 0 }
  super := ⟨64, 360, 1, 1, 12⟩
  zmap := fun k => k == 0
  imap := fun k => decide (k ≤ 1)
  inode := fun _ => { Inode.zero with iMode := 0o100644, iNlinks := 1, iCount := 1 }

theorem write_stays_below_start :
    Desc.Ok ⟨0, false⟩ ∧
      ∃ text, emptyFile.sysWrite 1 ⟨2 ^ 30, false⟩ [0] = .error text ∧ OutOfRange text := by
  have hrun : Relation.ReflTransGen (FileStep 1 true) (emptyFile, ⟨0, false⟩) (emptyFile, ⟨2 ^ 30, false⟩) :=
    Relation.ReflTransGen.single (FileStep.lseek (2 ^ 30) 0 (by decide))
  exact ⟨⟨Int.le_refl _, by decide⟩, (write_stays_below hrun [0]).2.2.1 (by decide) (by decide)⟩

/-- `lseek(fd, 0x40000000, 0)`, `write(fd, buf, 1)`. -/
theorem write_leaves :
    Relation.ReflTransGen (FileStep 1 true) (emptyFile, ⟨0, false⟩) (emptyFile, ⟨2 ^ 30, false⟩) ∧
      emptyFile.sysWrite 1 ⟨2 ^ 30, false⟩ [0] = .error "_bmap: block>big" := by
  refine ⟨?_, rfl⟩
  apply Relation.ReflTransGen.single
  exact FileStep.lseek (2 ^ 30) 0 (by decide)

end Dev

end Linux011.Fs
