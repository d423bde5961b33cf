import Linux011.Fs.BufferHeads
import Linux011.Fs.InodeTable
import Linux011.Lib.Run

/-!
# sys_sync

`sys_sync` of `fs/buffer.c` with `sync_inodes`, `read_inode` and `write_inode` of `fs/inode.c`, over the buffer
heads, alone on the machine. The first pass puts the dirty inodes into buffers. A read has finished when `bread`
goes on. The second pass asks for the dirty buffers to be written, and the disk answers in its own time and order.

`getblk` reuses a dirty buffer only after `sync_dev`, which waits for all inodes. One of them is locked by the
`write_inode` that has called `getblk`, so the call then sleeps for good.
-/

namespace Linux011.Fs

open Linux011.Lib

/-- `INODES_PER_BLOCK`: an inode on the disk has 32 bytes. -/
def inodesPerBlock : Nat := 32

/-- `struct m_inode`, with the bytes of its `d_inode` in `record`. -/
structure CInode where
  record : Nat → UInt8
  iDev : Nat
  iNum : Nat
  iLock : Bool
  iDirt : Bool
  iPipe : Bool

/-- Why a call does not return: it panics, or sleeps and nobody wakes it. -/
inductive Stop where
  | panic (text : String)
  | sleeps

/-- `driver` says which devices have a `request_fn`. -/
structure Store where
  heads : Heads
  disk : Nat → Nat → Nat → UInt8
  inode : Nat → CInode
  super : Nat → Option Super
  driver : Nat → Bool

namespace Store

def setHead (b : Nat) (h : Head) (s : Store) : Store := { s with heads := s.heads.set b h }

/-- `getblk`, called with an inode locked. -/
def getblk (dev block : Nat) (s : Store) : Except Stop (Nat × Store) :=
  match s.heads.findBuffer dev block with
  | some b =>
    if (s.heads.head b).bLock then .error .sleeps
    else .ok (b, s.setHead b { s.heads.head b with bCount := (s.heads.head b).bCount + 1 })
  | none =>
    match s.heads.choose s.heads.freeList none with
    | none => .error .sleeps
    | some b =>
      if (s.heads.head b).bLock || (s.heads.head b).bDirt then .error .sleeps
      else .ok (b, { s with heads := s.heads.reassign b dev block })

/-- `ll_rw_block(READ,bh); wait_on_buffer(bh);` -/
def readBuffer (b : Nat) (s : Store) : Store :=
  let h := s.heads.head b
  if !s.driver h.bDev || h.bUptodate then s
  else s.setHead b { h with bData := s.disk h.bDev h.bBlocknr, bUptodate := true, bDirt := false }

def brelse (b : Nat) (s : Store) : Except Stop Store :=
  if (s.heads.head b).bCount = 0 then .error (.panic "Trying to free free buffer")
  else .ok (s.setHead b { s.heads.head b with bCount := (s.heads.head b).bCount - 1 })

/-- `bread`, with `none` for a block that cannot be read. -/
def bread (dev block : Nat) (s : Store) : Except Stop (Option Nat × Store) := do
  let r ← s.getblk dev block
  let s := r.2.readBuffer r.1
  if (s.heads.head r.1).bUptodate then return (some r.1, s)
  else
    let s ← s.brelse r.1
    return (none, s)

/-! ## Inodes on the disk -/

/-- The block of an inode. -/
def inodeBlock (sb : Super) (num : Nat) : Nat :=
  2 + sb.sImapBlocks + sb.sZmapBlocks + (num - 1) / inodesPerBlock

/-- Byte `p` of the inode in its block. -/
def inodeOffset (num p : Nat) : Nat := 32 * ((num - 1) % inodesPerBlock) + p

/-- The bytes of a block after the record of an inode has been stored. -/
def putRecord (num : Nat) (record data : Nat → UInt8) (o : Nat) : UInt8 :=
  if inodeOffset num 0 ≤ o ∧ o < inodeOffset num 32 then record (o - inodeOffset num 0) else data o

/-- What `read_inode` copies out of a block. -/
def getRecord (num : Nat) (data : Nat → UInt8) (p : Nat) : UInt8 := data (inodeOffset num p)

def writeInode (i : Nat) (s : Store) : Except Stop Store :=
  let n := s.inode i
  if !n.iDirt || n.iDev = 0 then .ok s
  else
    match s.super n.iDev with
    | none => .error (.panic "trying to write inode without device")
    | some sb => do
      let r ← s.bread n.iDev (inodeBlock sb n.iNum)
      match r.1 with
      | none => .error (.panic "unable to read i-node block")
      | some b =>
        let s := r.2.setHead b
          { r.2.heads.head b with bData := putRecord n.iNum n.record (r.2.heads.head b).bData, bDirt := true }
        let s := { s with inode := Function.update s.inode i { n with iDirt := false } }
        s.brelse b

/-- The loop of `sync_inodes`. -/
def syncInode (s : Store) (i : Nat) : Except Stop Store :=
  if (s.inode i).iLock then .error .sleeps
  else if (s.inode i).iDirt && !(s.inode i).iPipe then s.writeInode i
  else .ok s

def syncInodes (s : Store) : Except Stop Store := (List.range nrInode).foldlM syncInode s

end Store

/-! ## The second pass -/

/-- `sys_sync` has come to buffer `next`, and the writes of the buffers in `queued` are outstanding. -/
structure Flush where
  store : Store
  next : Nat
  queued : List Nat

namespace Flush

/-- `sys_sync` goes on to the next buffer, or the disk has written a block. -/
inductive Step : Flush → Flush → Prop
  | clean (f : Flush) (hlt : f.next < f.store.heads.nrBuffers)
      (hunlocked : (f.store.heads.head f.next).bLock = false)
      (hclean : ((f.store.heads.head f.next).bDirt && f.store.driver (f.store.heads.head f.next).bDev) = false) :
      Step f { f with next := f.next + 1 }
  | request (f : Flush) (hlt : f.next < f.store.heads.nrBuffers)
      (hunlocked : (f.store.heads.head f.next).bLock = false)
      (hdirt : (f.store.heads.head f.next).bDirt = true)
      (hdriver : f.store.driver (f.store.heads.head f.next).bDev = true) :
      Step f
        { store := f.store.setHead f.next { f.store.heads.head f.next with bDirt := false, bLock := true }
          next := f.next + 1
          queued := f.next :: f.queued }
  | complete (f : Flush) (b : Nat) (hb : b ∈ f.queued) :
      Step f
        { f with
          store := { f.store.setHead b { f.store.heads.head b with bUptodate := true, bLock := false } with
            disk := Function.update f.store.disk (f.store.heads.head b).bDev
              (Function.update (f.store.disk (f.store.heads.head b).bDev) (f.store.heads.head b).bBlocknr
                (f.store.heads.head b).bData) }
          queued := f.queued.erase b }

end Flush

/-- A state after `sys_sync` has returned and its requests have completed. -/
def Store.Synced (s s' : Store) : Prop :=
  ∃ s₁, s.syncInodes = .ok s₁ ∧
    Relation.ReflTransGen Flush.Step ⟨s₁, 0, []⟩ ⟨s', s'.heads.nrBuffers, []⟩

/-! ## What the cache shows -/

namespace Store

/-- The bytes of a block, as a reader would see them. -/
def contents (s : Store) (dev block : Nat) : Nat → UInt8 :=
  match s.heads.findBuffer dev block with
  | some b => if (s.heads.head b).bUptodate then (s.heads.head b).bData else s.disk dev block
  | none => s.disk dev block

/-- The buffers are in order: nothing is locked, dirty buffers are up to date and can be written, each block has at
most one buffer, and a clean buffer that is up to date is a copy of the disk. -/
structure Tidy (s : Store) : Prop where
  unlocked : ∀ b < s.heads.nrBuffers, (s.heads.head b).bLock = false
  dirty : ∀ b < s.heads.nrBuffers, (s.heads.head b).bDirt = true →
    (s.heads.head b).bUptodate = true ∧ (s.heads.head b).bDev ≠ 0 ∧ s.driver (s.heads.head b).bDev = true
  distinct : s.heads.Distinct
  ring : ∀ b ∈ s.heads.freeList, b < s.heads.nrBuffers
  coherent : ∀ b < s.heads.nrBuffers, (s.heads.head b).bDev ≠ 0 → (s.heads.head b).bUptodate = true →
    (s.heads.head b).bDirt = false → (s.heads.head b).bData = s.disk (s.heads.head b).bDev (s.heads.head b).bBlocknr

/-- Only the buffers may differ, and they show the same. -/
structure Kept (s s' : Store) : Prop where
  tidy : s'.Tidy
  contents : ∀ dev block, dev ≠ 0 → s'.contents dev block = s.contents dev block
  nrBuffers : s'.heads.nrBuffers = s.heads.nrBuffers
  disk : s'.disk = s.disk
  inode : s'.inode = s.inode
  super : s'.super = s.super
  driver : s'.driver = s.driver

variable {s s' s'' : Store} {b dev block : Nat} {h : Head}

theorem Kept.trans (hk : Kept s s') (hk' : Kept s' s'') : Kept s s'' :=
  ⟨hk'.tidy, fun dev block hdev => (hk'.contents dev block hdev).trans (hk.contents dev block hdev),
    hk'.nrBuffers.trans hk.nrBuffers, hk'.disk.trans hk.disk, hk'.inode.trans hk.inode, hk'.super.trans hk.super,
    hk'.driver.trans hk.driver⟩

@[simp] theorem heads_setHead : (s.setHead b h).heads = s.heads.set b h := rfl

theorem contents_is (ht : s.heads.Distinct) (hdev : dev ≠ 0) (hb : b < s.heads.nrBuffers)
    (his : s.heads.Is b dev block) :
    s.contents dev block = if (s.heads.head b).bUptodate then (s.heads.head b).bData else s.disk dev block := by
  unfold contents
  rw [Heads.findBuffer_is ht hdev hb his]

theorem contents_none (hno : ∀ b < s.heads.nrBuffers, ¬ s.heads.Is b dev block) :
    s.contents dev block = s.disk dev block := by
  unfold contents
  cases hf : s.heads.findBuffer dev block with
  | none => rfl
  | some b =>
    obtain ⟨hb, his⟩ := Heads.findBuffer_some hf
    exact absurd his (hno b hb)

/-- A change of a buffer that keeps its block. -/
structure Touches (s : Store) (b : Nat) (h : Head) : Prop where
  lt : b < s.heads.nrBuffers
  dev : h.bDev = (s.heads.head b).bDev
  blocknr : h.bBlocknr = (s.heads.head b).bBlocknr

theorem Touches.is (hh : s.Touches b h) (a : Nat) : (s.setHead b h).heads.Is a dev block ↔ s.heads.Is a dev block := by
  unfold Heads.Is
  rw [heads_setHead, Heads.head_set]
  split
  · next heq => rw [heq, hh.dev, hh.blocknr]
  · rfl

theorem Touches.contents (hh : s.Touches b h) (ht : s.heads.Distinct) (hdev : dev ≠ 0) :
    (s.setHead b h).contents dev block =
      if s.heads.Is b dev block then if h.bUptodate then h.bData else s.disk dev block else s.contents dev block := by
  have hdistinct : (s.setHead b h).heads.Distinct := fun a c ha hc dev block hdev ha' hc' =>
    ht a c ha hc dev block hdev ((hh.is a).mp ha') ((hh.is c).mp hc')
  by_cases hown : s.heads.Is b dev block
  · rw [if_pos hown, contents_is hdistinct hdev hh.lt ((hh.is b).mpr hown), heads_setHead, Heads.head_set, if_pos rfl]
    rfl
  · rw [if_neg hown]
    by_cases hcached : ∃ a, a < s.heads.nrBuffers ∧ s.heads.Is a dev block
    · obtain ⟨a, ha, his⟩ := hcached
      have hne : a ≠ b := fun heq => hown (heq ▸ his)
      rw [contents_is hdistinct hdev ha ((hh.is a).mpr his), contents_is ht hdev ha his, heads_setHead, Heads.head_set,
        if_neg hne]
      rfl
    · rw [contents_none (s := s.setHead b h) fun a ha his => hcached ⟨a, ha, (hh.is a).mp his⟩,
        contents_none fun a ha his => hcached ⟨a, ha, his⟩]
      rfl

/-- A change of a buffer that keeps its block keeps the order, if the buffer is in order. -/
theorem Touches.tidy (hh : s.Touches b h) (ht : s.Tidy) (hlock : h.bLock = false)
    (hdirty : h.bDirt = true → h.bUptodate = true ∧ h.bDev ≠ 0 ∧ s.driver h.bDev = true)
    (hclean : h.bDev ≠ 0 → h.bUptodate = true → h.bDirt = false → h.bData = s.disk h.bDev h.bBlocknr) :
    (s.setHead b h).Tidy := by
  refine ⟨fun a ha => ?_, fun a ha => ?_, fun a c ha hc dev block hdev ha' hc' => ?_, ht.ring, fun a ha => ?_⟩
  · rw [heads_setHead, Heads.head_set]
    split
    · exact hlock
    · exact ht.unlocked a ha
  · rw [heads_setHead, Heads.head_set]
    split
    · exact hdirty
    · exact ht.dirty a ha
  · exact ht.distinct a c ha hc dev block hdev ((hh.is a).mp ha') ((hh.is c).mp hc')
  · rw [heads_setHead, Heads.head_set]
    split
    · exact hclean
    · exact ht.coherent a ha

/-- A change of the reference count. -/
theorem kept_count (ht : s.Tidy) (hb : b < s.heads.nrBuffers) (n : Nat) :
    Kept s (s.setHead b { s.heads.head b with bCount := n }) := by
  have hh : s.Touches b { s.heads.head b with bCount := n } := ⟨hb, rfl, rfl⟩
  refine ⟨hh.tidy ht (ht.unlocked b hb) (ht.dirty b hb) (ht.coherent b hb), fun dev block hdev => ?_, rfl, rfl, rfl, rfl,
    rfl⟩
  rw [hh.contents ht.distinct hdev]
  split
  · next his => rw [contents_is ht.distinct hdev hb his]
  · rfl

theorem is_reassign {a d k : Nat} : (s.heads.reassign b dev block).Is a d k ↔
    if a = b then dev = d ∧ block = k else s.heads.Is a d k := by
  unfold Heads.Is
  rw [Heads.head_reassign]
  split
  · exact Iff.rfl
  · exact Iff.rfl

theorem distinct_reassign (ht : s.heads.Distinct) (hnone : s.heads.findBuffer dev block = none) :
    (s.heads.reassign b dev block).Distinct := by
  have hfresh := fun a (ha : a < s.heads.nrBuffers) => Heads.findBuffer_none hnone ha
  intro a c ha hc d k hd ha' hc'
  rw [is_reassign] at ha' hc'
  split at ha'
  · next hab =>
    split at hc'
    · next hcb => rw [hab, hcb]
    · rw [← ha'.1, ← ha'.2] at hc'
      exact absurd hc' (hfresh c hc)
  · split at hc'
    · rw [← hc'.1, ← hc'.2] at ha'
      exact absurd ha' (hfresh a ha)
    · exact ht a c ha hc d k hd ha' hc'

theorem tidy_reassign (ht : s.Tidy) (hb : b < s.heads.nrBuffers) (hnone : s.heads.findBuffer dev block = none) :
    Tidy { s with heads := s.heads.reassign b dev block } := by
  refine ⟨fun a ha => ?_, fun a ha => ?_, distinct_reassign ht.distinct hnone, fun a ha => ?_, fun a ha => ?_⟩
  · show ((s.heads.reassign b dev block).head a).bLock = false
    rw [Heads.head_reassign]
    split
    · exact ht.unlocked b hb
    · exact ht.unlocked a ha
  · show ((s.heads.reassign b dev block).head a).bDirt = true → _
    rw [Heads.head_reassign]
    split
    · exact fun h => by cases h
    · exact ht.dirty a ha
  · rcases List.mem_append.mp ha with hold | hnew
    · exact ht.ring a (List.mem_of_mem_erase hold)
    · rw [List.mem_singleton.mp hnew]
      exact hb
  · show ((s.heads.reassign b dev block).head a).bDev ≠ 0 → _
    rw [Heads.head_reassign]
    split
    · exact fun _ h => by cases h
    · exact ht.coherent a ha

/-- The new block is read from the disk, and the block that has lost its clean buffer is as it is there. -/
theorem contents_reassign {d k : Nat} (ht : s.Tidy) (hb : b < s.heads.nrBuffers)
    (hclean : (s.heads.head b).bDirt = false) (hnone : s.heads.findBuffer dev block = none) (hd : d ≠ 0) :
    contents { s with heads := s.heads.reassign b dev block } d k = s.contents d k := by
  have hfresh := fun a (ha : a < s.heads.nrBuffers) => Heads.findBuffer_none hnone ha
  by_cases hcached : ∃ a, a < s.heads.nrBuffers ∧ (s.heads.reassign b dev block).Is a d k
  · obtain ⟨a, ha, ha'⟩ := hcached
    rw [contents_is (s := { s with heads := s.heads.reassign b dev block })
      (distinct_reassign ht.distinct hnone) hd ha ha']
    show (if ((s.heads.reassign b dev block).head a).bUptodate then _ else _) = _
    rw [Heads.head_reassign]
    rw [is_reassign] at ha'
    split at ha'
    · next hab =>
      obtain ⟨rfl, rfl⟩ := ha'
      rw [if_pos hab, contents_none hfresh]
      rfl
    · next hne =>
      rw [if_neg hne, contents_is ht.distinct hd ha ha']
  · rw [contents_none (s := { s with heads := s.heads.reassign b dev block }) fun a ha ha' => hcached ⟨a, ha, ha'⟩]
    show s.disk d k = _
    by_cases hold : s.heads.Is b d k
    · rw [contents_is ht.distinct hd hb hold]
      split
      · next hup =>
        have hsame := ht.coherent b hb (by rw [hold.1]; exact hd) hup hclean
        rw [hsame, hold.1, hold.2]
      · rfl
    · rw [contents_none]
      intro a ha ha'
      have hne : a ≠ b := fun heq => hold (heq ▸ ha')
      refine hcached ⟨a, ha, is_reassign.mpr ?_⟩
      rw [if_neg hne]
      exact ha'

/-- A clean buffer that nobody uses is given to a block that has none. -/
theorem kept_reassign (ht : s.Tidy) (hb : b < s.heads.nrBuffers) (hclean : (s.heads.head b).bDirt = false)
    (hnone : s.heads.findBuffer dev block = none) :
    Kept s { s with heads := s.heads.reassign b dev block } ∧ (s.heads.reassign b dev block).Is b dev block := by
  refine ⟨⟨tidy_reassign ht hb hnone, fun d k hd => contents_reassign ht hb hclean hnone hd, rfl, rfl, rfl, rfl, rfl⟩,
    is_reassign.mpr ?_⟩
  rw [if_pos rfl]
  exact ⟨rfl, rfl⟩

/-! ## Reading and writing inodes -/

theorem kept_refl (ht : s.Tidy) : Kept s s := ⟨ht, fun _ _ _ => rfl, rfl, rfl, rfl, rfl, rfl⟩

/-- `getblk` gives the buffer of the block, or sleeps. -/
theorem getblk_spec (ht : s.Tidy) :
    Post (s.getblk dev block)
      (fun r => Kept s r.2 ∧ r.1 < s.heads.nrBuffers ∧ r.2.heads.Is r.1 dev block ∧ (r.2.heads.head r.1).bCount ≠ 0)
      (fun e => e = .sleeps) := by
  unfold getblk
  split
  · next b hfound =>
    obtain ⟨hb, his⟩ := Heads.findBuffer_some hfound
    split
    · exact Post.stop rfl
    · refine Post.ret ⟨kept_count ht hb _, hb, ?_, ?_⟩
      · have hh : s.Touches b { s.heads.head b with bCount := (s.heads.head b).bCount + 1 } := ⟨hb, rfl, rfl⟩
        exact (hh.is b).mpr his
      · rw [heads_setHead, Heads.head_set, if_pos rfl]
        exact Nat.succ_ne_zero _
  · next hnone =>
    split
    · exact Post.stop rfl
    · next b hchoice =>
      have hb : b < s.heads.nrBuffers := by
        rcases Heads.choose_some hchoice with hno | hmem
        · cases hno
        · exact ht.ring b hmem.1
      split
      · exact Post.stop rfl
      · next hgood =>
        rw [Bool.or_eq_true, not_or, Bool.not_eq_true, Bool.not_eq_true] at hgood
        obtain ⟨hkept, his⟩ := kept_reassign ht hb hgood.2 hnone
        refine Post.ret ⟨hkept, hb, his, ?_⟩
        show ((s.heads.reassign b dev block).head b).bCount ≠ 0
        rw [Heads.head_reassign, if_pos rfl]
        exact Nat.one_ne_zero

/-- The buffer of a working device is filled from the disk. -/
theorem readBuffer_spec (ht : s.Tidy) (hb : b < s.heads.nrBuffers) (his : s.heads.Is b dev block)
    (hdriver : s.driver dev = true) :
    Kept s (s.readBuffer b) ∧ (s.readBuffer b).heads.Is b dev block ∧
      ((s.readBuffer b).heads.head b).bUptodate = true ∧
      ((s.readBuffer b).heads.head b).bCount = (s.heads.head b).bCount := by
  unfold readBuffer
  have hworks : s.driver (s.heads.head b).bDev = true := by rw [his.1, hdriver]
  simp only [hworks, Bool.not_true, Bool.false_or]
  split
  · next hup => exact ⟨kept_refl ht, his, hup, rfl⟩
  · next hstale =>
    have hh : s.Touches b { s.heads.head b with
        bData := s.disk (s.heads.head b).bDev (s.heads.head b).bBlocknr, bUptodate := true, bDirt := false } :=
      ⟨hb, rfl, rfl⟩
    refine ⟨⟨hh.tidy ht (ht.unlocked b hb) (fun h => by cases h) fun _ _ _ => rfl, fun d k hd => ?_, rfl, rfl, rfl, rfl,
      rfl⟩, (hh.is b).mpr his, ?_, ?_⟩
    · rw [hh.contents ht.distinct hd]
      split
      · next hown =>
        rw [contents_is ht.distinct hd hb hown, if_pos rfl, if_neg hstale, hown.1, hown.2]
      · rfl
    · rw [heads_setHead, Heads.head_set, if_pos rfl]
    · rw [heads_setHead, Heads.head_set, if_pos rfl]

theorem bread_spec (ht : s.Tidy) (hdriver : s.driver dev = true) :
    Post (s.bread dev block)
      (fun r => ∃ b, r.1 = some b ∧ Kept s r.2 ∧ b < s.heads.nrBuffers ∧ r.2.heads.Is b dev block ∧
        (r.2.heads.head b).bUptodate = true ∧ (r.2.heads.head b).bCount ≠ 0)
      (fun e => e = .sleeps) := by
  unfold bread
  refine Post.bind (getblk_spec ht) ?_
  rintro ⟨b, s₁⟩ ⟨hkept, hb, his, hcount⟩
  have hread := readBuffer_spec hkept.tidy (by rw [hkept.nrBuffers]; exact hb) his (by rw [hkept.driver]; exact hdriver)
  simp only
  rw [if_pos hread.2.2.1]
  exact Post.ret ⟨b, rfl, hkept.trans hread.1, hb, hread.2.1, hread.2.2.1, by rw [hread.2.2.2]; exact hcount⟩

/-- An inode that `write_inode` can write. -/
def Writable (s : Store) (n : CInode) : Prop :=
  n.iDev ≠ 0 ∧ s.driver n.iDev = true ∧ ∃ sb, s.super n.iDev = some sb ∧ 1 ≤ n.iNum ∧ n.iNum ≤ sb.sNinodes

/-- What `write_inode` does to the state: the inode is clean, and its block shows its record. -/
structure Wrote (s : Store) (i : Nat) (sb : Super) (s' : Store) : Prop where
  tidy : s'.Tidy
  super_eq : s.super (s.inode i).iDev = some sb
  contents : ∀ dev block, dev ≠ 0 → s'.contents dev block =
    if dev = (s.inode i).iDev ∧ block = inodeBlock sb (s.inode i).iNum then
      putRecord (s.inode i).iNum (s.inode i).record (s.contents dev block)
    else s.contents dev block
  nrBuffers : s'.heads.nrBuffers = s.heads.nrBuffers
  disk : s'.disk = s.disk
  inode : s'.inode = Function.update s.inode i { s.inode i with iDirt := false }
  super : s'.super = s.super
  driver : s'.driver = s.driver

theorem writeInode_spec {i : Nat} (ht : s.Tidy) (hdirt : (s.inode i).iDirt = true) (hi : s.Writable (s.inode i)) :
    Post (s.writeInode i) (fun s' => ∃ sb, Wrote s i sb s') (fun e => e = .sleeps) := by
  obtain ⟨hdev, hdriver, sb, hsb, -, -⟩ := hi
  unfold writeInode
  simp only
  rw [if_neg (by simp [hdirt, hdev]), hsb]
  refine Post.bind (bread_spec ht hdriver) ?_
  rintro ⟨found, s₁⟩ ⟨b, hfound, hkept, hb, his, hup, hcount⟩
  cases hfound
  have hb₁ : b < s₁.heads.nrBuffers := by rw [hkept.nrBuffers]; exact hb
  obtain ⟨h, hh⟩ : ∃ h, h = { s₁.heads.head b with
      bData := putRecord (s.inode i).iNum (s.inode i).record (s₁.heads.head b).bData, bDirt := true } := ⟨_, rfl⟩
  have htouch : s₁.Touches b h := by
    rw [hh]
    exact ⟨hb₁, rfl, rfl⟩
  have htidy : (s₁.setHead b h).Tidy := by
    refine htouch.tidy hkept.tidy ?_ (fun _ => ?_) fun _ _ hclean => ?_
    · rw [hh]
      exact hkept.tidy.unlocked b hb₁
    · rw [hh]
      exact ⟨hup, by rw [his.1]; exact hdev, by rw [his.1, hkept.driver]; exact hdriver⟩
    · rw [hh] at hclean
      cases hclean
  have hcontents : ∀ d k, d ≠ 0 → (s₁.setHead b h).contents d k =
      if d = (s.inode i).iDev ∧ k = inodeBlock sb (s.inode i).iNum then
        putRecord (s.inode i).iNum (s.inode i).record (s.contents d k)
      else s.contents d k := by
    intro d k hd
    have hiff : s₁.heads.Is b d k ↔ d = (s.inode i).iDev ∧ k = inodeBlock sb (s.inode i).iNum := by
      unfold Heads.Is
      rw [his.1, his.2]
      exact and_congr eq_comm eq_comm
    rw [htouch.contents hkept.tidy.distinct hd, ← hkept.contents d k hd]
    by_cases hown : s₁.heads.Is b d k
    · rw [if_pos hown, if_pos (hiff.mp hown), contents_is hkept.tidy.distinct hd hb₁ hown, if_pos hup, hh]
      exact if_pos hup
    · rw [if_neg hown, if_neg fun heq => hown (hiff.mpr heq)]
  simp only
  rw [← hh]
  -- releasing the buffer changes no more than its count
  unfold brelse
  have hcount' : ((s₁.setHead b h).heads.head b).bCount ≠ 0 := by
    rw [heads_setHead, Heads.head_set, if_pos rfl, hh]
    exact hcount
  rw [if_neg (by exact hcount')]
  have hrel := kept_count htidy hb₁ (((s₁.setHead b h).heads.head b).bCount - 1)
  refine Post.ret ⟨sb, ⟨hrel.tidy.unlocked, hrel.tidy.dirty, hrel.tidy.distinct, hrel.tidy.ring, hrel.tidy.coherent⟩, hsb,
    fun d k hd => ?_, hkept.nrBuffers, hkept.disk, ?_, hkept.super, hkept.driver⟩
  · rw [← hcontents d k hd]
    exact hrel.contents d k hd
  · show Function.update s₁.inode i _ = _
    rw [hkept.inode]

/-! ## The first pass -/

/-- A dirty inode that is no pipe. -/
def Pending (s : Store) (i : Nat) : Prop :=
  i < nrInode ∧ (s.inode i).iDirt = true ∧ (s.inode i).iPipe = false

/-- Nobody is at work. The dirty inodes can be written, and an inode of a device is in the table once. -/
structure Quiescent (s : Store) : Prop where
  tidy : s.Tidy
  unlocked : ∀ i < nrInode, (s.inode i).iLock = false
  writable : ∀ i, s.Pending i → s.Writable (s.inode i)
  apart : ∀ i j, s.Pending i → s.Pending j → (s.inode i).iDev = (s.inode j).iDev → (s.inode i).iNum = (s.inode j).iNum →
    i = j

/-- Byte `o` of a block lies in the record of an inode. -/
def InRecord (s : Store) (n : CInode) (dev block o : Nat) : Prop :=
  n.iDev = dev ∧ ∃ sb, s.super dev = some sb ∧ block = inodeBlock sb n.iNum ∧
    inodeOffset n.iNum 0 ≤ o ∧ o < inodeOffset n.iNum 32

theorem getRecord_putRecord (num : Nat) (record data : Nat → UInt8) {p : Nat} (hp : p < 32) :
    getRecord num (putRecord num record data) p = record p := by
  unfold getRecord putRecord inodeOffset
  rw [if_pos (by omega), show 32 * ((num - 1) % inodesPerBlock) + p - (32 * ((num - 1) % inodesPerBlock) + 0) = p by omega]

/-- Two inodes in one block have different places in it. -/
theorem getRecord_apart {num num' : Nat} (hnum : 1 ≤ num) (hnum' : 1 ≤ num') (hne : num ≠ num')
    (hblock : (num - 1) / inodesPerBlock = (num' - 1) / inodesPerBlock) (record data : Nat → UInt8) {p : Nat} (hp : p < 32) :
    getRecord num (putRecord num' record data) p = getRecord num data p := by
  unfold getRecord putRecord inodeOffset inodesPerBlock at *
  rw [if_neg (by omega)]

/-- `sync_inodes` has come to inode `k`. -/
structure Passed (s : Store) (k : Nat) (s' : Store) : Prop where
  tidy : s'.Tidy
  nrBuffers : s'.heads.nrBuffers = s.heads.nrBuffers
  disk : s'.disk = s.disk
  super : s'.super = s.super
  driver : s'.driver = s.driver
  done : ∀ i < k, (s'.inode i).iPipe = false → (s'.inode i).iDirt = false
  rest : ∀ i, k ≤ i → s'.inode i = s.inode i
  stored : ∀ i < k, s.Pending i → ∀ sb, s.super (s.inode i).iDev = some sb → ∀ p < 32,
    getRecord (s.inode i).iNum (s'.contents (s.inode i).iDev (inodeBlock sb (s.inode i).iNum)) p = (s.inode i).record p
  others : ∀ dev block o, dev ≠ 0 → (∀ i < k, s.Pending i → ¬ s.InRecord (s.inode i) dev block o) →
    s'.contents dev block o = s.contents dev block o

theorem Passed.skip {k : Nat} (h : Passed s k s') (hk : (s.inode k).iPipe = false → (s.inode k).iDirt = false) :
    Passed s (k + 1) s' := by
  refine ⟨h.tidy, h.nrBuffers, h.disk, h.super, h.driver, fun i hi => ?_, fun i hi => h.rest i (by omega), fun i hi hp => ?_,
    fun dev block o hdev hno => h.others dev block o hdev fun i hi => hno i (by omega)⟩
  · rcases Nat.lt_succ_iff_lt_or_eq.mp hi with hlt | rfl
    · exact h.done i hlt
    · rw [h.rest i (Nat.le_refl i)]
      exact hk
  · rcases Nat.lt_succ_iff_lt_or_eq.mp hi with hlt | rfl
    · exact h.stored i hlt hp
    · have hclean := hk hp.2.2
      rw [hp.2.1] at hclean
      cases hclean

/-- The record of inode `k` goes to its place, and the records that are there already stay. -/
theorem Passed.write {k : Nat} {sb : Super} (hq : s.Quiescent) (h : Passed s k s') (hk : s.Pending k)
    (hw : Wrote s' k sb s'') : Passed s (k + 1) s'' := by
  have hnode := h.rest k (Nat.le_refl k)
  have hsuper := hw.super_eq
  rw [hnode, h.super] at hsuper
  have hcontents := hw.contents
  rw [hnode] at hcontents
  refine ⟨hw.tidy, hw.nrBuffers.trans h.nrBuffers, hw.disk.trans h.disk, hw.super.trans h.super, hw.driver.trans h.driver,
    fun i hi => ?_, fun i hi => ?_, fun i hi hp sb' hsb' p hp32 => ?_, fun dev block o hdev hno => ?_⟩
  · rw [hw.inode]
    rcases Nat.lt_succ_iff_lt_or_eq.mp hi with hlt | rfl
    · rw [Function.update_of_ne (Nat.ne_of_lt hlt)]
      exact h.done i hlt
    · rw [Function.update_self]
      exact fun _ => rfl
  · rw [hw.inode, Function.update_of_ne (by omega)]
    exact h.rest i (by omega)
  · obtain ⟨hdev, -, sbi, hsbi, hnum, -⟩ := hq.writable i hp
    rw [hcontents _ _ hdev]
    rcases Nat.lt_succ_iff_lt_or_eq.mp hi with hlt | rfl
    · split
      · next heq =>
        -- another inode in the same block
        have hsame : sb' = sb := by
          rw [heq.1, hsuper] at hsb'
          exact (Option.some.inj hsb').symm
        have hne : (s.inode i).iNum ≠ (s.inode k).iNum := fun hnum => Nat.ne_of_lt hlt (hq.apart i k hp hk heq.1 hnum)
        obtain ⟨-, -, -, -, hnum', -⟩ := hq.writable k hk
        have hplace := heq.2
        unfold inodeBlock at hplace
        rw [hsame] at hplace ⊢
        rw [getRecord_apart hnum hnum' hne (by omega) _ _ hp32]
        exact h.stored i hlt hp sb (by rw [heq.1]; exact hsuper) p hp32
      · exact h.stored i hlt hp sb' hsb' p hp32
    · have hsame : sb' = sb := Option.some.inj (hsb'.symm.trans hsuper)
      rw [hsame, if_pos ⟨rfl, rfl⟩]
      exact getRecord_putRecord _ _ _ hp32
  · have hold := h.others dev block o hdev fun i hi => hno i (by omega)
    rw [hcontents dev block hdev]
    split
    · next heq =>
      have hout := hno k (Nat.lt_succ_self k) hk
      unfold putRecord
      rw [if_neg, hold]
      intro hin
      exact hout ⟨heq.1.symm, sb, by rw [heq.1]; exact hsuper, heq.2, hin⟩
    · exact hold

theorem Passed.step {k : Nat} (hq : s.Quiescent) (h : Passed s k s') (hk : k < nrInode) :
    Post (s'.syncInode k) (Passed s (k + 1)) (fun e => e = .sleeps) := by
  have hnode := h.rest k (Nat.le_refl k)
  unfold syncInode
  rw [hnode, if_neg (by rw [hq.unlocked k hk]; exact Bool.false_ne_true)]
  split
  · next hdirty =>
    rw [Bool.and_eq_true, Bool.not_eq_true'] at hdirty
    have hpending : s.Pending k := ⟨hk, hdirty.1, hdirty.2⟩
    have hwritable : s'.Writable (s'.inode k) := by
      unfold Writable
      rw [hnode, h.driver, h.super]
      exact hq.writable k hpending
    refine (writeInode_spec h.tidy (by rw [hnode]; exact hdirty.1) hwritable).imp ?_
    rintro s'' ⟨sb, hw⟩
    exact h.write hq hpending hw
  · next hskip =>
    refine Post.ret (h.skip fun hpipe => ?_)
    rw [hpipe, Bool.not_false, Bool.and_true, Bool.not_eq_true] at hskip
    exact hskip

/-- The first pass. -/
theorem syncInodes_spec (hq : s.Quiescent) : Post s.syncInodes (Passed s nrInode) (fun e => e = .sleeps) := by
  refine Post.foldlM_range nrInode (fun k hk s' h => h.step hq hk) ?_
  exact ⟨hq.tidy, rfl, rfl, rfl, rfl, fun i hi => absurd hi (Nat.not_lt_zero i), fun _ _ => rfl,
    fun i hi => absurd hi (Nat.not_lt_zero i), fun _ _ _ _ _ => rfl⟩

/-! ## The second pass -/

/-- The disk when the dirty buffers before `next` have been written, except those in `queued`. -/
def written (s : Store) (next : Nat) (queued : List Nat) (dev block : Nat) : Nat → UInt8 :=
  match s.heads.findBuffer dev block with
  | some b =>
    if (s.heads.head b).bDirt ∧ b < next ∧ b ∉ queued then (s.heads.head b).bData else s.disk dev block
  | none => s.disk dev block

/-- The second pass, begun in state `s`, has come to `f`. -/
structure Flushing (s : Store) (f : Flush) : Prop where
  nrBuffers : f.store.heads.nrBuffers = s.heads.nrBuffers
  inode : f.store.inode = s.inode
  driver : f.store.driver = s.driver
  le : f.next ≤ s.heads.nrBuffers
  rest : ∀ b, f.next ≤ b → f.store.heads.head b = s.heads.head b
  block : ∀ b, (f.store.heads.head b).bDev = (s.heads.head b).bDev ∧
    (f.store.heads.head b).bBlocknr = (s.heads.head b).bBlocknr ∧ (f.store.heads.head b).bData = (s.heads.head b).bData
  queued : ∀ b ∈ f.queued, b < f.next ∧ (s.heads.head b).bDirt = true
  nodup : f.queued.Nodup
  clean : ∀ b < f.next, (f.store.heads.head b).bDirt = false
  disk : ∀ dev block, dev ≠ 0 → f.store.disk dev block = s.written f.next f.queued dev block

theorem Flushing.clean_step {f : Flush} (ht : s.Tidy) (h : s.Flushing f) (hlt : f.next < f.store.heads.nrBuffers)
    (hclean : ((f.store.heads.head f.next).bDirt && f.store.driver (f.store.heads.head f.next).bDev) = false) :
    s.Flushing { f with next := f.next + 1 } := by
  rw [h.nrBuffers] at hlt
  have hdirt : (s.heads.head f.next).bDirt = false := by
    by_contra hdirt
    rw [Bool.not_eq_false] at hdirt
    rw [h.rest f.next (Nat.le_refl _), h.driver, hdirt, (ht.dirty f.next hlt hdirt).2.2] at hclean
    cases hclean
  refine ⟨h.nrBuffers, h.inode, h.driver, hlt, fun b hb => h.rest b (Nat.le_of_succ_le hb), h.block, fun b hb => ?_, h.nodup,
    fun b hb => ?_, fun dev block hdev => ?_⟩
  · exact ⟨Nat.lt_succ_of_lt (h.queued b hb).1, (h.queued b hb).2⟩
  · rcases Nat.lt_succ_iff_lt_or_eq.mp hb with hold | rfl
    · exact h.clean b hold
    · rw [h.rest f.next (Nat.le_refl _), hdirt]
  · rw [h.disk dev block hdev]
    unfold written
    split
    · next b _ =>
      have hiff : (s.heads.head b).bDirt ∧ b < f.next ∧ b ∉ f.queued ↔
          (s.heads.head b).bDirt ∧ b < f.next + 1 ∧ b ∉ f.queued := by
        refine and_congr_right fun hb => and_congr_left fun _ => ?_
        have hne : b ≠ f.next := fun heq => by rw [heq, hdirt] at hb; cases hb
        omega
      simp only [hiff]
    · rfl

theorem Flushing.request_step {f : Flush} (h : s.Flushing f) (hlt : f.next < f.store.heads.nrBuffers)
    (hdirt : (f.store.heads.head f.next).bDirt = true) :
    s.Flushing
      { store := f.store.setHead f.next { f.store.heads.head f.next with bDirt := false, bLock := true }
        next := f.next + 1
        queued := f.next :: f.queued } := by
  rw [h.nrBuffers] at hlt
  rw [h.rest f.next (Nat.le_refl _)] at hdirt
  have hfresh : f.next ∉ f.queued := fun hmem => Nat.lt_irrefl _ (h.queued f.next hmem).1
  refine ⟨h.nrBuffers, h.inode, h.driver, hlt, fun b hb => ?_, fun b => ?_, fun b hb => ?_,
    List.nodup_cons.mpr ⟨hfresh, h.nodup⟩, fun b hb => ?_, fun dev block hdev => ?_⟩
  · rw [heads_setHead, Heads.head_set, if_neg (Nat.ne_of_gt hb)]
    exact h.rest b (Nat.le_of_succ_le hb)
  · rw [heads_setHead, Heads.head_set]
    split
    · next heq =>
      rw [heq]
      exact h.block f.next
    · exact h.block b
  · rcases List.mem_cons.mp hb with rfl | hold
    · exact ⟨Nat.lt_succ_self _, hdirt⟩
    · exact ⟨Nat.lt_succ_of_lt (h.queued b hold).1, (h.queued b hold).2⟩
  · rw [heads_setHead, Heads.head_set]
    split
    · rfl
    · next hne => exact h.clean b (Nat.lt_of_le_of_ne (Nat.le_of_lt_succ hb) hne)
  · show f.store.disk dev block = _
    rw [h.disk dev block hdev]
    unfold written
    split
    · next b _ =>
      have hiff : (s.heads.head b).bDirt ∧ b < f.next ∧ b ∉ f.queued ↔
          (s.heads.head b).bDirt ∧ b < f.next + 1 ∧ b ∉ f.next :: f.queued := by
        rw [List.mem_cons, not_or]
        refine and_congr_right fun _ => ?_
        grind
      simp only [hiff]
    · rfl

theorem Flushing.complete_step {f : Flush} {b : Nat} (ht : s.Tidy) (h : s.Flushing f) (hb : b ∈ f.queued) :
    s.Flushing
      { f with
        store := { f.store.setHead b { f.store.heads.head b with bUptodate := true, bLock := false } with
          disk := Function.update f.store.disk (f.store.heads.head b).bDev
            (Function.update (f.store.disk (f.store.heads.head b).bDev) (f.store.heads.head b).bBlocknr
              (f.store.heads.head b).bData) }
        queued := f.queued.erase b } := by
  obtain ⟨hlt, hdirt⟩ := h.queued b hb
  obtain ⟨hdev, hblock, hdata⟩ := h.block b
  have hbn : b < s.heads.nrBuffers := Nat.lt_of_lt_of_le hlt h.le
  refine ⟨h.nrBuffers, h.inode, h.driver, h.le, fun a ha => ?_, fun a => ?_, fun a ha => ?_, h.nodup.erase b, fun a ha => ?_,
    fun d k hd => ?_⟩
  · rw [heads_setHead, Heads.head_set, if_neg (Nat.ne_of_gt (Nat.lt_of_lt_of_le hlt ha))]
    exact h.rest a ha
  · rw [heads_setHead, Heads.head_set]
    split
    · next heq =>
      rw [heq]
      exact h.block b
    · exact h.block a
  · exact h.queued a (List.mem_of_mem_erase ha)
  · rw [heads_setHead, Heads.head_set]
    split
    · exact h.clean b hlt
    · exact h.clean a ha
  · have hcell : Function.update f.store.disk (f.store.heads.head b).bDev
        (Function.update (f.store.disk (f.store.heads.head b).bDev) (f.store.heads.head b).bBlocknr
          (f.store.heads.head b).bData) d k
        = if s.heads.Is b d k then (s.heads.head b).bData else f.store.disk d k := by
      rw [hdev, hblock, hdata]
      by_cases hd' : d = (s.heads.head b).bDev
      · rw [hd', Function.update_self]
        by_cases hk' : k = (s.heads.head b).bBlocknr
        · rw [hk', Function.update_self, if_pos (show s.heads.Is b _ _ from ⟨rfl, rfl⟩)]
        · rw [Function.update_of_ne hk', if_neg fun hown : s.heads.Is b _ _ => hk' hown.2.symm]
      · rw [Function.update_of_ne hd', if_neg fun hown : s.heads.Is b _ _ => hd' hown.1.symm]
    show Function.update f.store.disk _ _ d k = _
    rw [hcell, h.disk d k hd]
    unfold written
    by_cases hown : s.heads.Is b d k
    · rw [if_pos hown, Heads.findBuffer_is ht.distinct hd hbn hown]
      exact (if_pos ⟨hdirt, hlt, fun hmem => (h.nodup.mem_erase_iff.mp hmem).1 rfl⟩).symm
    · rw [if_neg hown]
      split
      · next a hfound =>
        have hne : a ≠ b := fun heq => hown (heq ▸ (Heads.findBuffer_some hfound).2)
        simp only [h.nodup.mem_erase_iff, hne, ne_eq, not_false_eq_true, true_and]
      · rfl

/-- The second pass begins with no request outstanding. -/
theorem flushing_start (s : Store) : s.Flushing ⟨s, 0, []⟩ := by
  refine ⟨rfl, rfl, rfl, Nat.zero_le _, fun _ _ => rfl, fun _ => ⟨rfl, rfl, rfl⟩, fun b hb => (by cases hb), List.nodup_nil,
    fun b hb => absurd hb (Nat.not_lt_zero b), fun dev block _ => ?_⟩
  unfold written
  split
  · rw [if_neg fun h => Nat.not_lt_zero _ h.2.1]
  · rfl

/-- When all requests have completed, the disk is what the cache was. -/
theorem flush_spec (ht : s.Tidy) (hrun : Relation.ReflTransGen Flush.Step ⟨s, 0, []⟩ ⟨s', s'.heads.nrBuffers, []⟩) :
    s'.heads.nrBuffers = s.heads.nrBuffers ∧ s'.inode = s.inode ∧
      (∀ b < s'.heads.nrBuffers, (s'.heads.head b).bDirt = false) ∧
      ∀ dev block, dev ≠ 0 → s'.disk dev block = s.contents dev block := by
  have hlast := invariant_of_run (I := fun f => s.Flushing f) (fun f f' hf hstep => by
    cases hstep with
    | clean hlt _ hclean => exact hf.clean_step ht hlt hclean
    | request hlt _ hdirt _ => exact hf.request_step hlt hdirt
    | complete b hb => exact hf.complete_step ht hb) (flushing_start s) hrun
  refine ⟨hlast.nrBuffers, hlast.inode, hlast.clean, fun dev block hdev => ?_⟩
  rw [hlast.disk dev block hdev]
  unfold written contents
  cases hfound : s.heads.findBuffer dev block with
  | none => rfl
  | some b =>
    obtain ⟨hb, his⟩ := Heads.findBuffer_some hfound
    have hb' : b < s'.heads.nrBuffers := by
      rw [hlast.nrBuffers]
      exact hb
    simp only
    by_cases hdirt : (s.heads.head b).bDirt = true
    · rw [if_pos ⟨hdirt, hb', List.not_mem_nil⟩, if_pos (ht.dirty b hb hdirt).1]
    · rw [if_neg fun h => hdirt h.1]
      split
      · next hup =>
        rw [Bool.not_eq_true] at hdirt
        rw [ht.coherent b hb (by rw [his.1]; exact hdev) hup hdirt, his.1, his.2]
      · rfl

/-! ## That it returns -/

/-- There are `m` clean buffers that nobody uses. -/
def Roomy (s : Store) (m : Nat) : Prop :=
  ∃ bs : List Nat, bs.Nodup ∧ bs.length = m ∧
    ∀ b ∈ bs, b ∈ s.heads.freeList ∧ b < s.heads.nrBuffers ∧ (s.heads.head b).bCount = 0 ∧ (s.heads.head b).bDirt = false

/-- All that has changed is one buffer. -/
def OneBuffer (s s' : Store) (b : Nat) : Prop :=
  s'.heads.nrBuffers = s.heads.nrBuffers ∧ (∀ a ≠ b, s'.heads.head a = s.heads.head a) ∧
    ∀ a ∈ s.heads.freeList, a ∈ s'.heads.freeList

theorem oneBuffer_setHead (b : Nat) (h : Head) (s : Store) : OneBuffer s (s.setHead b h) b := by
  refine ⟨rfl, fun a ha => ?_, fun a ha => ha⟩
  rw [heads_setHead, Heads.head_set, if_neg ha]

theorem OneBuffer.trans (h : OneBuffer s s' b) (h' : OneBuffer s' s'' b) : OneBuffer s s'' b :=
  ⟨h'.1.trans h.1, fun a ha => (h'.2.1 a ha).trans (h.2.1 a ha), fun a ha => h'.2.2 a (h.2.2 a ha)⟩

theorem OneBuffer.roomy {m : Nat} (h : OneBuffer s s' b) (hroom : s.Roomy (m + 1)) : s'.Roomy m := by
  obtain ⟨bs, hnodup, hlen, hall⟩ := hroom
  obtain ⟨hn, hsame, hfree⟩ := h
  -- one of the buffers may be the one that has changed
  refine ⟨(bs.erase b).take m, (hnodup.erase b).sublist (List.take_sublist _ _), ?_, fun a ha => ?_⟩
  · rw [List.length_take, List.length_erase]
    split <;> omega
  · have hmem := List.mem_of_mem_take ha
    obtain ⟨hf, hlt, hcount, hclean⟩ := hall a (List.mem_of_mem_erase hmem)
    rw [hn, hsame a (hnodup.mem_erase_iff.mp hmem).1]
    exact ⟨hfree a hf, hlt, hcount, hclean⟩

theorem getblk_returns {m : Nat} (ht : s.Tidy) (hroom : s.Roomy (m + 1)) :
    Post (s.getblk dev block) (fun r => OneBuffer s r.2 r.1) (fun _ => False) := by
  unfold getblk
  split
  · next b hfound =>
    rw [if_neg (by rw [ht.unlocked b (Heads.findBuffer_some hfound).1]; exact Bool.false_ne_true)]
    exact Post.ret (oneBuffer_setHead ..)
  · obtain ⟨bs, -, hlen, hall⟩ := hroom
    cases bs with
    | nil => cases hlen
    | cons a bs =>
      obtain ⟨hf, hlt, hcount, hclean⟩ := hall a List.mem_cons_self
      have hgood : s.heads.badness a = 0 := by
        unfold Heads.badness
        rw [hclean, ht.unlocked a hlt]
        rfl
      have hnone : ∀ c, (none : Option Nat) = some c → 0 < s.heads.badness c := fun _ h => by cases h
      obtain ⟨b, hb, hbad⟩ := Heads.choose_good hnone ⟨a, hf, hcount, hgood⟩
      rw [hb]
      simp only
      have hfine : ((s.heads.head b).bLock || (s.heads.head b).bDirt) = false := by
        unfold Heads.badness at hbad
        cases hl : (s.heads.head b).bLock <;> cases hd : (s.heads.head b).bDirt <;> rw [hl, hd] at hbad <;> revert hbad <;> decide
      rw [if_neg (by rw [hfine]; exact Bool.false_ne_true)]
      refine Post.ret ⟨rfl, fun c hc => ?_, fun c hc => ?_⟩
      · show (s.heads.reassign b dev block).head c = _
        rw [Heads.head_reassign, if_neg hc]
      · show c ∈ s.heads.freeList.erase b ++ [b]
        by_cases heq : c = b
        · rw [heq]
          exact List.mem_append.mpr (Or.inr (List.mem_singleton.mpr rfl))
        · exact List.mem_append.mpr (Or.inl ((List.mem_erase_of_ne heq).mpr hc))

/-- `write_inode` uses up one clean buffer at most. -/
theorem writeInode_returns {i m : Nat} (ht : s.Tidy) (hi : s.Writable (s.inode i)) (hdirt : (s.inode i).iDirt = true)
    (hroom : s.Roomy (m + 1)) : Post (s.writeInode i) (fun s' => s'.Roomy m) (fun _ => False) := by
  obtain ⟨hdev, hdriver, sb, hsb, -, -⟩ := hi
  unfold writeInode
  simp only
  rw [if_neg (by simp [hdirt, hdev]), hsb]
  unfold bread
  refine Post.bind (Post.bind ((getblk_spec ht).and (getblk_returns ht hroom) |>.mono (fun _ h => h) fun _ h => h.2)
    fun r hr => ?_) fun r (hr : ∃ b s₁, r = (some b, s₁) ∧ OneBuffer s s₁ b ∧ (s₁.heads.head b).bCount ≠ 0) => ?_
  · obtain ⟨⟨hkept, hb, his, hcount⟩, hone⟩ := hr
    have hread := readBuffer_spec hkept.tidy (by rw [hkept.nrBuffers]; exact hb) his (by rw [hkept.driver]; exact hdriver)
    have htouch : OneBuffer r.2 (r.2.readBuffer r.1) r.1 := by
      unfold readBuffer
      simp only
      split
      · exact ⟨rfl, fun _ _ => rfl, fun _ h => h⟩
      · exact oneBuffer_setHead ..
    rw [if_pos hread.2.2.1]
    exact Post.ret ⟨_, _, rfl, hone.trans htouch, by rw [hread.2.2.2]; exact hcount⟩
  · obtain ⟨b, s₁, rfl, hone, hcount⟩ := hr
    simp only
    unfold brelse
    rw [if_neg (by
      show ((s₁.heads.set b _).head b).bCount ≠ 0
      rw [Heads.head_set, if_pos rfl]
      exact hcount)]
    refine Post.ret (OneBuffer.roomy (b := b) ?_ hroom)
    refine hone.trans ⟨rfl, fun a ha => ?_, fun _ h => h⟩
    show ((s₁.heads.set b _).set b _).head a = _
    rw [Heads.head_set, if_neg ha, Heads.head_set, if_neg ha]

theorem syncInodes_returns (hq : s.Quiescent) (hroom : s.Roomy nrInode) : ∃ s', s.syncInodes = .ok s' := by
  have hrun : Post s.syncInodes (fun s' => Passed s nrInode s' ∧ s'.Roomy (nrInode - nrInode)) (fun _ => False) := by
    refine Post.foldlM_range (I := fun k s' => Passed s k s' ∧ s'.Roomy (nrInode - k)) nrInode (fun k hk s' h => ?_) ?_
    · have hpost := h.1.step hq hk
      have hnode := h.1.rest k (Nat.le_refl k)
      have hroom' : s'.Roomy (nrInode - (k + 1) + 1) := by
        rw [show nrInode - (k + 1) + 1 = nrInode - k by omega]
        exact h.2
      have hnext : Post (s'.syncInode k) (fun s'' => s''.Roomy (nrInode - (k + 1))) (fun _ => False) := by
        unfold syncInode
        rw [hnode, if_neg (by rw [hq.unlocked k hk]; exact Bool.false_ne_true)]
        split
        · next hdirty =>
          rw [Bool.and_eq_true, Bool.not_eq_true'] at hdirty
          have hwritable : s'.Writable (s'.inode k) := by
            unfold Writable
            rw [hnode, h.1.driver, h.1.super]
            exact hq.writable k ⟨hk, hdirty⟩
          exact writeInode_returns h.1.tidy hwritable (by rw [hnode]; exact hdirty.1) hroom'
        · have hself : OneBuffer s' s' 0 := ⟨rfl, fun _ _ => rfl, fun _ h => h⟩
          exact Post.ret (hself.roomy hroom')
      exact (hpost.and hnext).mono (fun _ h => h) fun _ h => h.2
    · refine ⟨?_, hroom⟩
      exact ⟨hq.tidy, rfl, rfl, rfl, rfl, fun i hi => absurd hi (Nat.not_lt_zero i), fun _ _ => rfl,
        fun i hi => absurd hi (Nat.not_lt_zero i), fun _ _ _ _ _ => rfl⟩
  cases hx : s.syncInodes with
  | ok s' => exact ⟨s', rfl⟩
  | error e => exact (hrun.of_error e hx).elim

/-- The second pass can always go on to its end. -/
theorem flush_ends (ht : s.Tidy) : ∀ (turns : Nat) (f : Flush), s.Flushing f → f.queued = [] →
    f.next + turns = s.heads.nrBuffers →
    ∃ s', s'.heads.nrBuffers = s.heads.nrBuffers ∧ Relation.ReflTransGen Flush.Step f ⟨s', s.heads.nrBuffers, []⟩
  | 0, ⟨s', next, queued⟩, hf, hqueued, hturns => by
    simp only at hqueued hturns
    rw [hqueued]
    refine ⟨s', hf.nrBuffers, ?_⟩
    rw [← hturns]
    exact Relation.ReflTransGen.refl
  | turns + 1, f, hf, hqueued, hturns => by
    have hlt : f.next < f.store.heads.nrBuffers := by
      rw [hf.nrBuffers]
      omega
    have hunlocked : (f.store.heads.head f.next).bLock = false := by
      rw [hf.rest f.next (Nat.le_refl _)]
      exact ht.unlocked _ (by omega)
    cases hclean : (f.store.heads.head f.next).bDirt && f.store.driver (f.store.heads.head f.next).bDev with
    | false =>
      have hstep := Flush.Step.clean f hlt hunlocked hclean
      obtain ⟨s', hn, hrun⟩ := flush_ends ht turns _ (hf.clean_step ht hlt hclean) hqueued
        (show f.next + 1 + turns = _ by omega)
      exact ⟨s', hn, Relation.ReflTransGen.head hstep hrun⟩
    | true =>
      rw [Bool.and_eq_true] at hclean
      have hstep := Flush.Step.request f hlt hunlocked hclean.1 hclean.2
      have hnext := hf.request_step hlt hclean.1
      have hmem : f.next ∈ f.next :: f.queued := List.mem_cons_self
      have hdone := hnext.complete_step ht hmem
      obtain ⟨s', hn, hrun⟩ := flush_ends ht turns _ hdone (by
        show (f.next :: f.queued).erase f.next = []
        rw [List.erase_cons_head, hqueued]) (show f.next + 1 + turns = _ by omega)
      exact ⟨s', hn, Relation.ReflTransGen.head hstep (Relation.ReflTransGen.head (Flush.Step.complete _ _ hmem) hrun)⟩

/-- With a clean unused buffer for each inode, `sys_sync` returns and its requests complete. -/
theorem sysSync_returns (hq : s.Quiescent) (hroom : s.Roomy nrInode) : ∃ s', s.Synced s' := by
  obtain ⟨s₁, hpass⟩ := syncInodes_returns hq hroom
  have htidy := ((syncInodes_spec hq).of_ok s₁ hpass).tidy
  obtain ⟨s', hn, hrun⟩ := flush_ends htidy s₁.heads.nrBuffers _ (flushing_start s₁) rfl (Nat.zero_add _)
  refine ⟨s', s₁, hpass, ?_⟩
  rw [hn]
  exact hrun

end Store

open Store

variable {s : Store}

/-- `sys_sync` does not panic. When it has returned and its requests have completed, no inode and no buffer is dirty,
`read_inode` would find each inode that was dirty as it was, and everything else on the disk is what the cache
showed before. -/
theorem sysSync_writes (hq : s.Quiescent) :
    (∀ text, s.syncInodes ≠ .error (.panic text)) ∧ ∀ s', s.Synced s' →
      (∀ i < nrInode, (s'.inode i).iPipe = false → (s'.inode i).iDirt = false) ∧
      (∀ b < s'.heads.nrBuffers, (s'.heads.head b).bDirt = false) ∧
      (∀ i, s.Pending i → ∃ sb, s.super (s.inode i).iDev = some sb ∧ ∀ p < 32,
        getRecord (s.inode i).iNum (s'.disk (s.inode i).iDev (inodeBlock sb (s.inode i).iNum)) p = (s.inode i).record p) ∧
      ∀ dev block o, dev ≠ 0 → (∀ i, s.Pending i → ¬ s.InRecord (s.inode i) dev block o) →
        s'.disk dev block o = s.contents dev block o ∧
        ∀ b < s.heads.nrBuffers, s.heads.Is b dev block → (s.heads.head b).bDirt = true →
          s'.disk dev block o = (s.heads.head b).bData o := by
  have hspec := syncInodes_spec hq
  refine ⟨fun text htext => ?_, ?_⟩
  · have hsleeps := hspec.of_error _ htext
    cases hsleeps
  · rintro s' ⟨s₁, hpass, hrun⟩
    have h := hspec.of_ok s₁ hpass
    obtain ⟨-, hinode, hclean, hdisk⟩ := flush_spec h.tidy hrun
    refine ⟨fun i hi => ?_, hclean, fun i hi => ?_, fun dev block o hdev hno => ?_⟩
    · rw [hinode]
      exact h.done i hi
    · obtain ⟨hdev, -, sb, hsb, -⟩ := hq.writable i hi
      refine ⟨sb, hsb, fun p hp => ?_⟩
      rw [hdisk _ _ hdev]
      exact h.stored i hi.1 hi sb hsb p hp
    · have hshown : s'.disk dev block o = s.contents dev block o := by
        rw [hdisk dev block hdev]
        exact h.others dev block o hdev fun i _ hi => hno i hi
      refine ⟨hshown, fun b hb his hdirt => ?_⟩
      rw [hshown, contents_is hq.tidy.distinct hdev hb his, if_pos (hq.tidy.dirty b hb hdirt).1]

/-- Inode 33 of the hard disk and one of its blocks are dirty. -/
def syncing : Store where
  heads :=
    { nrBuffers := 33
      head := fun b => if b = 0 then ⟨0x301, 10, 0, true, true, false, fun _ => 7⟩ else ⟨0, 0, 0, false, false, false, fun _ => 0⟩
      freeList := List.range 33 }
  disk _ _ _ := 0
  inode i := if i = 0 then ⟨fun _ => 9, 0x301, 33, false, true, false⟩ else ⟨fun _ => 0, 0, 0, false, false, false⟩
  super dev := if dev = 0x301 then some ⟨64, 100, 1, 1, 6⟩ else none
  driver dev := dev == 0x301

theorem syncing_head {b : Nat} (hb : b ≠ 0) : syncing.heads.head b = ⟨0, 0, 0, false, false, false, fun _ => 0⟩ := if_neg hb

theorem syncing_pending {i : Nat} (h : syncing.Pending i) : i = 0 := by
  by_contra hi
  have hclean : (syncing.inode i).iDirt = false := by
    show (if i = 0 then _ else _ : CInode).iDirt = false
    rw [if_neg hi]
  rw [h.2.1] at hclean
  cases hclean

theorem syncing_quiescent : syncing.Quiescent := by
  refine ⟨⟨fun b _ => ?_, fun b _ hdirt => ?_, fun a b _ _ dev block hdev ha hb => ?_, fun b hb => List.mem_range.mp hb,
    fun b _ hdev _ hclean => ?_⟩, fun i _ => ?_, fun i hi => ?_, fun i j hi hj _ _ => ?_⟩
  · by_cases hb : b = 0
    · rw [hb]
      rfl
    · rw [syncing_head hb]
  · by_cases hb : b = 0
    · rw [hb]
      exact ⟨rfl, by decide, rfl⟩
    · rw [syncing_head hb] at hdirt
      cases hdirt
  · have hzero : ∀ c, syncing.heads.Is c dev block → c = 0 := by
      intro c hc
      by_contra hne
      rw [Heads.Is, syncing_head hne] at hc
      exact hdev hc.1.symm
    rw [hzero a ha, hzero b hb]
  · by_cases hb : b = 0
    · rw [hb] at hclean
      cases hclean
    · rw [syncing_head hb] at hdev
      exact absurd rfl hdev
  · show (if i = 0 then _ else _ : CInode).iLock = false
    split <;> rfl
  · rw [syncing_pending hi]
    exact ⟨by decide, rfl, ⟨64, 100, 1, 1, 6⟩, rfl, by decide, by decide⟩
  · rw [syncing_pending hi, syncing_pending hj]

theorem sysSync_writes_both : syncing.Quiescent ∧ ∃ s', syncing.Synced s' ∧
    (∀ p < 32, getRecord 33 (s'.disk 0x301 5) p = 9) ∧ ∀ o, s'.disk 0x301 10 o = 7 := by
  have hroom : syncing.Roomy nrInode := by
    refine ⟨List.range' 1 32, List.nodup_range', List.length_range', fun b hb => ?_⟩
    obtain ⟨hpos, hlt⟩ := List.mem_range'_1.mp hb
    rw [syncing_head (by omega)]
    exact ⟨List.mem_range.mpr (by omega), by show b < 33; omega, rfl, rfl⟩
  obtain ⟨s', hs'⟩ := sysSync_returns syncing_quiescent hroom
  obtain ⟨-, -, hrecords, hothers⟩ := (sysSync_writes syncing_quiescent).2 s' hs'
  refine ⟨syncing_quiescent, s', hs', ?_, fun o => ?_⟩
  · obtain ⟨sb, hsb, hrecord⟩ := hrecords 0 ⟨by decide, rfl, rfl⟩
    cases hsb
    exact hrecord
  · refine (hothers 0x301 10 o (by decide) fun i hi hin => ?_).2 0 (by decide) ⟨rfl, rfl⟩ rfl
    -- block 10 holds no inodes
    obtain ⟨-, sb, hsb, hblock, -⟩ := hin
    cases hsb
    rw [syncing_pending hi] at hblock
    exact absurd hblock (by decide)

end Linux011.Fs
