import Mathlib.Data.Nat.Bitwise
import Mathlib.Data.Set.Basic
import Linux011.Fs.Entries
import Linux011.Fs.InCore

/-!
# Making files

The parts of `open_namei` and `sys_mknod` of `fs/namei.c` that follow once the name is known to be absent from
the directory: an inode is taken, and the directory gets an entry for it. `euid`, `egid` and `umask` are those of
the process. Where the directory cannot be extended, what was taken is given back (`Undone`).
-/

namespace Linux011.Fs

open Linux011.Lib

/-- `ENOSPC` -/
def eNospc : Int := 28

namespace Core

/-- `_bmap` and `add_entry` set `i_dirt` where they change `i_zone` or `i_size`. -/
def changed (i i' : Inode) : Bool := i'.iSize != i.iSize || (List.range 9).any fun k => i'.iZone k != i.iZone k

def addEntry (dir : Nat) (name : List UInt8) (s : Core) : Except Panic (Option (Nat × Nat) × Core) := do
  let r ← s.lift (Dev.addEntry dir name)
  return (r.1, if changed (s.inode dir) (r.2.inode dir) then r.2.setDirt dir true else r.2)

/-- `open_namei` with `O_CREAT`, after the name was found absent. -/
def openCreate (dir : Nat) (name : List UInt8) (mode umask euid egid : Nat) (s : Core) :
    Except Panic (Int × Option Nat × Core) := do
  let r ← s.newInode euid egid
  match r.1 with
  | none =>
    let s ← r.2.iput dir
    return (-eNospc, none, s)
  | some n =>
    let mode := (mode &&& 0o777).ldiff umask ||| 0o100000
    let r ← (r.2.setInode n { r.2.inode n with iUid := euid, iMode := mode }).addEntry dir name
    match r.1 with
    | none =>
      let s ← (r.2.setInode n { r.2.inode n with iNlinks := (r.2.inode n).iNlinks - 1 }).iput n
      let s ← s.iput dir
      return (-eNospc, none, s)
    | some (b, k) =>
      let s ← (r.2.modify b (Dev.setWord (8 * k) n)).act (Dev.brelse b)
      let s ← s.iput dir
      return (0, some n, s)

/-- `sys_mknod`, after the name was found absent. The mode and the device are cut to 16 bits. -/
def sysMknod (dir : Nat) (name : List UInt8) (mode dev euid egid : Nat) (s : Core) : Except Panic (Int × Core) := do
  let r ← s.newInode euid egid
  match r.1 with
  | none =>
    let s ← r.2.iput dir
    return (-eNospc, s)
  | some n =>
    let s := r.2.setInode n { r.2.inode n with iMode := mode % 2 ^ 16 }
    let s := if isBlk mode || isChr mode then s.setZone n 0 (dev % 2 ^ 16) else s
    let r ← s.addEntry dir name
    match r.1 with
    | none =>
      let s ← r.2.iput dir
      let s ← (s.setInode n { s.inode n with iNlinks := 0 }).iput n
      return (-eNospc, s)
    | some (b, k) =>
      let s := r.2.modify b (Dev.setWord (8 * k) n)
      let s ← s.iput dir
      let s ← s.iput n
      let s ← s.act (Dev.brelse b)
      return (0, s)

end Core

namespace Dev

/-! ## What a failed call leaves -/

/-- An inode in use whose zone numbers are numbers of zones. -/
def zoned (s : Dev) (m : Nat) : Prop :=
  s.imap m = true ∧ (isReg (s.inode m).iMode = true ∨ isDir (s.inode m).iMode = true)

/-- Each used zone has exactly one owner, and there is no inode 0. -/
structure Consistent (s : Dev) : Prop where
  zones : ZoneInv True s.zoned noDead s
  inode_zero : s.imap 0 = true

/-- The directory that the look-up has left with the process, with blocks that can be read. `permission` has
refused a deleted one. -/
structure Parent (s : Dev) (dir : Nat) : Prop where
  used : s.imap dir = true
  folder : isDir (s.inode dir).iMode = true
  linked : (s.inode dir).iNlinks ≠ 0
  held : 0 < (s.inode dir).iCount
  legible : s.Legible dir

/-- The name in entry `i` of a directory. -/
def entryName (s : Dev) (dir i : Nat) : List UInt8 :=
  (List.range nameLen).map fun p => s.fileByte dir (16 * i + 2 + p)

/-- The entries that are not free, with their places. -/
def liveEntries (s : Dev) (dir : Nat) : Set (Nat × Nat × List UInt8) :=
  { e | 16 * e.1 < (s.inode dir).iSize ∧ e.1 / 64 < maxBlocks ∧ s.entryNr dir e.1 ≠ 0 ∧
    e.2.1 = s.entryNr dir e.1 ∧ e.2.2 = s.entryName dir e.1 }

/-- A failed call has left the inodes and the directory as they were. Zones may have been taken, but only by
the directory. -/
structure Undone (s : Dev) (dir : Nat) (s' : Dev) : Prop where
  imap : s'.imap = s.imap
  entries : s'.liveEntries dir = s.liveEntries dir
  size : (s'.inode dir).iSize = (s.inode dir).iSize
  links : ∀ m, s.imap m = true → (s'.inode m).iNlinks = (s.inode m).iNlinks
  count : (s'.inode dir).iCount + 1 = (s.inode dir).iCount
  consistent : s'.Consistent
  kept : ∀ m sl, s.zoned m → sl.Valid → s.slotZone m sl ≠ 0 → s'.slotZone m sl = s.slotZone m sl
  taken : ∀ z, s'.Used z → ¬ s.Used z → ∃ sl : Slot, sl.Valid ∧ s'.slotZone dir sl = z

/-- No inode is free. -/
def NoInode (s : Dev) : Prop := ∀ n, 1 ≤ n → n ≤ s.super.sNinodes → s.imap n = true

/-- The number of an inode that `free_inode` accepts. -/
def InRange (s : Dev) (n : Nat) : Prop := 1 ≤ n ∧ n ≤ s.super.sNinodes ∧ n / 8192 < s.super.sImapBlocks

/-- The inode `n` was free, and has become `i`. -/
structure Born (s : Dev) (n : Nat) (i : Inode) (s' : Dev) : Prop where
  free : s.imap n = false
  range : s.InRange n
  eq : s' = { s with imap := Function.update s.imap n true, inode := Function.update s.inode n i }

/-- The inode `n` is given back, and the directory is let go. -/
def withdraw (n dir : Nat) (s : Dev) : Dev :=
  { s with
    imap := Function.update s.imap n false
    inode := Function.update (Function.update s.inode n Inode.zero) dir
      { s.inode dir with iCount := (s.inode dir).iCount - 1 } }

end Dev

open Dev

variable {s s' s₁ s₂ : Dev} {t t' : Core} {n dir : Nat} {i i' : Inode}

/-! ## Taking an inode and giving it back -/

theorem Dev.Born.setInode (h : Born s n i s') (i' : Inode) : Born s n i' (s'.setInode n i') := by
  refine ⟨h.free, h.range, ?_⟩
  rw [h.eq]
  unfold Dev.setInode
  simp only [Function.update_idem]

theorem Dev.Born.inode_self (h : Born s n i s') : s'.inode n = i := by
  rw [h.eq]
  exact Function.update_self n i s.inode

theorem Dev.Born.setZone (h : Born s n i s') (k z : Nat) :
    Born s n { i with iZone := Function.update i.iZone k z } (s'.setZone n k z) := by
  unfold Dev.setZone
  rw [h.inode_self]
  exact h.setInode _

theorem Dev.Born.inode_ne (h : Born s n i s') {m : Nat} (hm : m ≠ n) : s'.inode m = s.inode m := by
  rw [h.eq]
  exact Function.update_of_ne hm i s.inode

theorem Dev.Born.ne_used (h : Born s n i s') {m : Nat} (hm : s.imap m = true) : m ≠ n := by
  rintro rfl
  rw [h.free] at hm
  cases hm

/-- An inode without zones is only cut. -/
theorem truncate_empty
    (hempty : isReg (s.inode n).iMode = true ∨ isDir (s.inode n).iMode = true → (s.inode n).iZone = fun _ => 0) :
    ∃ i, s.truncate n = .ok (s.setInode n i) ∧ i.iCount = (s.inode n).iCount ∧ i.iNlinks = (s.inode n).iNlinks := by
  unfold truncate
  split
  · refine ⟨s.inode n, ?_, rfl, rfl⟩
    unfold Dev.setInode
    rw [Function.update_eq_self]
  · next hmode =>
    have hzone := hempty (by
      rw [Bool.and_eq_true, Bool.not_eq_true', Bool.not_eq_true'] at hmode
      rcases Bool.eq_false_or_eq_true (isReg (s.inode n).iMode) with hreg | hreg
      · exact Or.inl hreg
      · exact Or.inr (Bool.eq_true_of_not_eq_false fun hdir => hmode ⟨hreg, hdir⟩))
    have hdirect : ∀ ks : List Nat, ks.foldlM (fun s k => s.freeDirect n k) s = .ok s := by
      intro ks
      induction ks with
      | nil => rfl
      | cons k ks ih =>
        rw [List.foldlM_cons]
        have hk : s.freeDirect n k = .ok s := if_pos (congrFun hzone k)
        rw [hk]
        exact ih
    have hindex : ∀ free, s.freeIndex free 0 = .ok s := fun free => if_pos rfl
    refine ⟨?_, ?_, ?_, ?_⟩
    rotate_left
    · rw [hdirect]
      show (s.freeInd ((s.inode n).iZone 7) >>= fun s => _) = _
      rw [hzone]
      show (s.freeIndex _ 0 >>= fun s => _) = _
      rw [hindex]
      show (s.freeDind ((s.inode n).iZone 8) >>= fun s => _) = _
      rw [hzone]
      show (s.freeIndex _ 0 >>= fun s => _) = _
      rw [hindex]
      show Except.ok _ = _
      unfold Dev.setZone Dev.setInode
      simp only [Function.update_idem, Function.update_self]
      rfl
    · rfl
    · rfl

/-- Nothing but the inode itself is freed with its last reference. -/
structure Bare (i : Inode) : Prop where
  count : i.iCount = 1
  links : i.iNlinks = 0
  zones : isReg i.iMode = true ∨ isDir i.iMode = true → i.iZone = fun _ => 0

theorem iput_bare (h : Bare (s.inode n)) (hrange : s.InRange n) :
    s.iput n = .ok { s with
      imap := Function.update s.imap n false, inode := Function.update s.inode n Inode.zero } := by
  obtain ⟨hcount, hlinks, hempty⟩ := h
  obtain ⟨hpos, hmax, hblock⟩ := hrange
  obtain ⟨i, htruncate, hi, hi'⟩ := truncate_empty hempty
  have hself : (s.setInode n i).inode n = i := by
    unfold Dev.setInode
    exact Function.update_self ..
  unfold iput
  rw [if_neg (by rw [hcount]; exact Nat.one_ne_zero), if_neg (by rw [hcount]; exact Nat.lt_irrefl 1), if_pos hlinks,
    htruncate]
  show (s.setInode n i).freeInode n = _
  unfold freeInode
  rw [hself, hi, hi', hcount, hlinks, if_neg (Nat.lt_irrefl 1), if_neg (fun h => h rfl),
    if_neg (by show ¬ (n < 1 ∨ s.super.sNinodes < n); omega), if_neg (by show ¬ s.super.sImapBlocks ≤ n / 8192; omega)]
  unfold Dev.setInode
  simp only [Function.update_idem]

/-- One reference of several, or to an inode with links. -/
theorem iput_linked (hcount : 0 < (s.inode n).iCount) (hlinks : (s.inode n).iNlinks ≠ 0) :
    s.iput n = .ok (s.setCount n ((s.inode n).iCount - 1)) := by
  unfold iput
  rw [if_neg (Nat.ne_of_gt hcount)]
  by_cases hmany : 1 < (s.inode n).iCount
  · rw [if_pos hmany]
  · rw [if_neg hmany, if_neg hlinks]

/-! ## The directory as before -/

/-- Directory `dir` is the same file in both states. -/
structure Alike (dir : Nat) (s s' : Dev) : Prop where
  slot : ∀ sl : Slot, sl.Valid → s'.slotZone dir sl = s.slotZone dir sl
  file : ∀ p, p / 1024 < maxBlocks → s'.fileByte dir p = s.fileByte dir p
  size : (s'.inode dir).iSize = (s.inode dir).iSize
  readable : ∀ b, s.Readable b → s'.Readable b

namespace Alike

theorem trans {s'' : Dev} (h : Alike dir s s') (h' : Alike dir s' s'') : Alike dir s s'' :=
  ⟨fun sl hsl => (h'.slot sl hsl).trans (h.slot sl hsl), fun p hp => (h'.file p hp).trans (h.file p hp),
    h'.size.trans h.size, fun b => h'.readable b ∘ h.readable b⟩

theorem legible (h : Alike dir s s') (hleg : s.Legible dir) : s'.Legible dir := by
  intro sl hsl hz
  rw [h.slot sl hsl] at hz ⊢
  exact h.readable _ (hleg sl hsl hz)

end Alike

/-- Only the inode of the directory and the blocks matter. -/
theorem alike_cache (hcache : s'.cache = s.cache) (hzone : (s'.inode dir).iZone = (s.inode dir).iZone)
    (hsize : (s'.inode dir).iSize = (s.inode dir).iSize) : Alike dir s s' := by
  have hcontents : s'.contents = s.contents := congrArg Cache.contents hcache
  have hslot : ∀ sl, s'.slotZone dir sl = s.slotZone dir sl :=
    fun sl => slotZone_congr hzone fun _ _ _ => by rw [hcontents]
  refine ⟨fun sl _ => hslot sl, fun p _ => ?_, hsize, ?_⟩
  · unfold Dev.fileByte
    rw [hslot, hcontents]
  · unfold Dev.Readable
    rw [hcache]
    exact fun _ hb => hb

theorem Dev.Born.alike (h : Born s n i s') (hne : dir ≠ n) : Alike dir s s' := by
  have hinode := h.inode_ne hne
  have hcache : s'.cache = s.cache := by rw [h.eq]
  exact alike_cache hcache (by rw [hinode]) (by rw [hinode])

theorem Grown.alike {zoned : Nat → Prop} (h : Grown zoned n s s') (hdir : zoned dir) (hne : dir ≠ n) :
    Alike dir s s' :=
  ⟨fun sl hsl => h.slot_ne dir hne sl hdir hsl, fun p hp => h.file dir p hdir hp, by rw [h.inode_ne dir hne],
    h.readable⟩

theorem entryNr_file {e : Nat} (hfile : ∀ p, p / 1024 < maxBlocks → s'.fileByte dir p = s.fileByte dir p)
    (he : e / 64 < maxBlocks) : s'.entryNr dir e = s.entryNr dir e := by
  unfold Dev.entryNr Dev.word
  rw [hfile _ (by omega), hfile _ (by omega)]

theorem liveEntries_file (hfile : ∀ p, p / 1024 < maxBlocks → s'.fileByte dir p = s.fileByte dir p)
    (hsize : (s'.inode dir).iSize = (s.inode dir).iSize) : s'.liveEntries dir = s.liveEntries dir := by
  ext ⟨e, nr, name⟩
  unfold Dev.liveEntries
  rw [Set.mem_ofPred_eq, Set.mem_ofPred_eq, hsize]
  refine and_congr_right fun _ => and_congr_right fun he => ?_
  have hname : s'.entryName dir e = s.entryName dir e := by
    apply List.map_congr_left
    intro p hp
    have hlen : p < 14 := List.mem_range.mp hp
    apply hfile
    show (16 * e + 2 + p) / 1024 < maxBlocks
    simp only at he
    omega
  rw [entryNr_file hfile he, hname]

/-- The first free entry lies in the largest file. -/
theorem Dev.FirstFree.lt {tight : Prop} {zoned : Nat → Prop} {e : Nat} (h : ZoneInv tight zoned noDead s)
    (hdir : zoned dir) (hfirst : s.FirstFree dir e) : e / 64 < maxBlocks := by
  apply block_lt h hdir
  intro c hc
  have htaken := present_of_taken (hfirst.2 (64 * c) (by omega))
  rwa [show 64 * c / 64 = c by omega] at htaken

theorem Alike.firstFree {tight : Prop} {zoned : Nat → Prop} {e : Nat} (ha : Alike dir s s')
    (h : ZoneInv tight zoned noDead s) (hdir : zoned dir) (hfirst : s.FirstFree dir e) : s'.FirstFree dir e := by
  have hlt := hfirst.lt h hdir
  have husable : ∀ j ≤ e, s'.Usable dir j ↔ s.Usable dir j := by
    intro j hj
    unfold Dev.Usable
    rw [ha.size, entryNr_file ha.file (by omega)]
  exact ⟨(husable e (Nat.le_refl e)).mpr hfirst.1, fun j hj h' => hfirst.2 j hj ((husable j (by omega)).mp h')⟩

theorem Alike.room {tight : Prop} {zoned : Nat → Prop} {zones : Nat} (ha : Alike dir s s')
    (h : ZoneInv tight zoned noDead s) (hdir : zoned dir) : s'.Room dir zones ↔ s.Room dir zones := by
  obtain ⟨first, hfirst⟩ := exists_firstFree s dir
  have hfirst' := ha.firstFree h hdir hfirst
  have hvalid := (Slot.ofBlock_valid (hfirst.lt h hdir)).1
  have hmissing : s'.missing dir (Slot.ofBlock (first / 64)) = s.missing dir (Slot.ofBlock (first / 64)) := by
    unfold Dev.missing
    apply List.countP_congr
    intro p hp
    have hp' : p.Valid := by
      rcases List.mem_append.mp hp with habove | hself
      · exact (Slot.above_valid hvalid habove).1
      · rw [List.mem_singleton.mp hself]
        exact hvalid
    rw [ha.slot p hp']
  have hzone : (s'.inode dir).iZone 0 = (s.inode dir).iZone 0 := ha.slot (.zone 0) (by show 0 < 9; omega)
  unfold Dev.Room
  rw [hzone]
  refine and_congr_right fun _ => ⟨fun hall e he => ?_, fun hall e he => ?_⟩
  · rw [he.unique hfirst, ← hmissing]
    exact hall first hfirst'
  · rw [he.unique hfirst', hmissing]
    exact hall first hfirst

/-! ## What undoing leaves -/

theorem undone_of (hs : s.Consistent) (hdir : s.Parent dir) (hinv : ZoneInv True s.zoned noDead s')
    (himap : s'.imap = s.imap) (hother : ∀ m ≠ dir, s.imap m = true → s'.inode m = s.inode m)
    (hself : ∃ zone, s'.inode dir = { s.inode dir with iZone := zone, iCount := (s.inode dir).iCount - 1 })
    (hfile : ∀ p, p / 1024 < maxBlocks → s'.fileByte dir p = s.fileByte dir p)
    (hkept : ∀ sl : Slot, sl.Valid → s.slotZone dir sl ≠ 0 → s'.slotZone dir sl = s.slotZone dir sl)
    (hslot : ∀ m ≠ dir, ∀ sl, s.zoned m → sl.Valid → s'.slotZone m sl = s.slotZone m sl) :
    Undone s dir s' := by
  obtain ⟨zone, hzone⟩ := hself
  have hzoned : s'.zoned = s.zoned := by
    funext m
    unfold Dev.zoned
    rw [himap]
    refine propext (and_congr_right fun hm => ?_)
    by_cases hne : m = dir
    · rw [hne, hzone]
    · rw [hother m hne hm]
  have hsize : (s'.inode dir).iSize = (s.inode dir).iSize := by rw [hzone]
  refine ⟨himap, liveEntries_file hfile hsize, hsize, fun m hm => ?_, ?_, ⟨by rw [hzoned]; exact hinv, ?_⟩, ?_, ?_⟩
  · by_cases hne : m = dir
    · rw [hne, hzone]
    · rw [hother m hne hm]
  · rw [hzone]
    exact Nat.sub_add_cancel hdir.held
  · rw [himap]
    exact hs.inode_zero
  · intro m sl hm hsl hz
    by_cases hne : m = dir
    · rw [hne] at hz ⊢
      exact hkept sl hsl hz
    · exact hslot m hne sl hm hsl
  · intro z hused hunused
    obtain ⟨⟨m, sl⟩, hm, hsl, -, heq, hz⟩ := hinv.owns.owner trivial z hused
    simp only at hm hsl heq
    by_cases hne : m = dir
    · exact ⟨sl, hsl, by rw [← hne, heq]⟩
    · -- the zones of the other inodes were used before
      rw [hslot m hne sl hm hsl] at heq
      exact absurd (heq ▸ hs.zones.used hm hsl (by rw [heq]; exact hz)) hunused

theorem Dev.Parent.zoned (h : s.Parent dir) : s.zoned dir := ⟨h.used, Or.inr h.folder⟩

theorem Dev.Born.not_zoned (h : Born s n i s') {m : Nat} (hm : s.zoned m) : m ≠ n := h.ne_used hm.1

/-- The new inode does not disturb the zones of the others. -/
theorem Dev.Born.zones {tight : Prop} (h : Born s n i s') (hs : ZoneInv tight s.zoned noDead s) :
    ZoneInv tight s.zoned noDead s' := by
  refine hs.apart ?_ ?_ ?_ fun m hm => by rw [h.inode_ne (h.not_zoned hm)]
  · rw [h.eq]
  · rw [h.eq]
  · rw [h.eq]

/-- The directory alone is let go. -/
theorem undone_release (hs : s.Consistent) (hdir : s.Parent dir) :
    Undone s dir (s.setCount dir ((s.inode dir).iCount - 1)) := by
  have hzone : ∀ m, ((s.setCount dir ((s.inode dir).iCount - 1)).inode m).iZone = (s.inode m).iZone := by
    intro m
    unfold Dev.setCount Dev.setInode
    by_cases hne : m = dir
    · rw [hne]
      simp only [Function.update_self]
    · simp only [Function.update_of_ne hne]
  have hsize : ((s.setCount dir ((s.inode dir).iCount - 1)).inode dir).iSize = (s.inode dir).iSize := by
    unfold Dev.setCount Dev.setInode
    simp only [Function.update_self]
  have halike : Alike dir s (s.setCount dir ((s.inode dir).iCount - 1)) := alike_cache rfl (hzone dir) hsize
  refine undone_of hs hdir (hs.zones.apart rfl rfl rfl fun m _ => hzone m) rfl (fun m hne _ => ?_)
    ⟨(s.inode dir).iZone, ?_⟩ halike.file (fun sl hsl _ => halike.slot sl hsl) fun m hne sl _ _ => slotZone_congr (hzone m) fun _ _ _ => rfl
  · unfold Dev.setCount Dev.setInode
    exact Function.update_of_ne hne ..
  · unfold Dev.setCount Dev.setInode
    exact Function.update_self ..

/-- The directory may have grown before the new inode is given back. -/
theorem undone_withdraw (hs : s.Consistent) (hdir : s.Parent dir) (hborn : Born s n i s₁)
    (h₂ : ZoneInv True s.zoned noDead s₂) (hgrown : Grown s.zoned dir s₁ s₂) :
    Undone s dir (s₂.withdraw n dir) := by
  have hne := hborn.ne_used hdir.used
  have hself : (s₂.withdraw n dir).inode dir = { s₂.inode dir with iCount := (s₂.inode dir).iCount - 1 } :=
    Function.update_self ..
  have hrest : ∀ m, m ≠ n → m ≠ dir → (s₂.withdraw n dir).inode m = s₂.inode m := by
    intro m hm hm'
    show Function.update (Function.update s₂.inode n Inode.zero) dir _ m = _
    rw [Function.update_of_ne hm', Function.update_of_ne hm]
  have hzone : ∀ m ≠ n, ((s₂.withdraw n dir).inode m).iZone = (s₂.inode m).iZone := by
    intro m hm
    by_cases hm' : m = dir
    · rw [hm', hself]
    · rw [hrest m hm hm']
  have hslot₂ : ∀ m ≠ n, ∀ sl, (s₂.withdraw n dir).slotZone m sl = s₂.slotZone m sl :=
    fun m hm sl => slotZone_congr (hzone m hm) fun _ _ _ => rfl
  have hcache : s₁.cache = s.cache := by rw [hborn.eq]
  have hslot₁ : ∀ m ≠ n, ∀ sl, s₁.slotZone m sl = s.slotZone m sl :=
    fun m hm sl => slotZone_congr (by rw [hborn.inode_ne hm]) fun _ _ _ => by rw [Dev.contents, hcache]; rfl
  refine undone_of hs hdir (h₂.apart rfl rfl rfl fun m hm => hzone m (hborn.not_zoned hm)) ?_ (fun m hm hused => ?_)
    ?_ (fun p hp => ?_) (fun sl hsl hz => ?_) fun m hm sl hzm hsl => ?_
  · show Function.update s₂.imap n false = s.imap
    have himap : s₁.imap = Function.update s.imap n true := by rw [hborn.eq]
    rw [hgrown.imap, himap, Function.update_idem, ← hborn.free, Function.update_eq_self]
  · have hmn := hborn.ne_used hused
    rw [hrest m hmn hm, hgrown.inode_ne m hm, hborn.inode_ne hmn]
  · obtain ⟨zone, hzone₂⟩ := hgrown.inode_self
    exact ⟨zone, by rw [hself, hzone₂, hborn.inode_ne hne]⟩
  · have halike : Alike dir s₂ (s₂.withdraw n dir) := alike_cache rfl (hzone dir hne) (by rw [hself])
    rw [halike.file p hp, hgrown.file dir p hdir.zoned hp, (hborn.alike hne).file p hp]
  · rw [hslot₂ dir hne, hgrown.slot dir sl hdir.zoned hsl (by rw [hslot₁ dir hne]; exact hz), hslot₁ dir hne]
  · have hmn := hborn.not_zoned hzm
    rw [hslot₂ m hmn, hgrown.slot_ne m hm sl hzm hsl, hslot₁ m hmn]

/-! ## While the inodes are written back -/

theorem Dev.Still.alike (h : Still s s') (dir : Nat) : Alike dir s s' :=
  ⟨fun sl _ => h.same.slotZone dir sl, fun p _ => h.same.fileByte dir p, by rw [h.same.inode],
    fun b hb => (h.readable b).mpr hb⟩

theorem Dev.Still.zoned (h : Still s s') : s'.zoned = s.zoned := by
  funext m
  unfold Dev.zoned
  rw [h.same.imap, h.same.inode]

theorem Dev.Still.noInode (h : Still s s') : s'.NoInode ↔ s.NoInode := by
  unfold Dev.NoInode
  rw [h.same.imap, h.same.super]

theorem Dev.Consistent.still (hs : s.Consistent) (h : Still s s') : s'.Consistent := by
  refine ⟨?_, by rw [h.same.imap]; exact hs.inode_zero⟩
  rw [h.zoned]
  exact hs.zones.same h.same fun z _ hz => by rw [h.held]; exact hz

theorem Dev.Parent.still (hdir : s.Parent dir) (h : Still s s') : s'.Parent dir := by
  have hinode := h.same.inode
  refine ⟨by rw [h.same.imap]; exact hdir.used, ?_, ?_, ?_, h.same.legible hdir.legible⟩
  · rw [hinode]
    exact hdir.folder
  · rw [hinode]
    exact hdir.linked
  · rw [hinode]
    exact hdir.held

theorem Dev.Undone.still (h : Undone s dir s₁) (hstill : Still s₁ s₂) : Undone s dir s₂ := by
  have hinode := hstill.same.inode
  have halike := hstill.alike dir
  refine ⟨hstill.same.imap.trans h.imap, (liveEntries_file halike.file halike.size).trans h.entries,
    halike.size.trans h.size, fun m hm => ?_, ?_, h.consistent.still hstill, fun m sl hm hsl hz => ?_, fun z hz hold => ?_⟩
  · rw [hinode]
    exact h.links m hm
  · rw [hinode]
    exact h.count
  · rw [hstill.same.slotZone]
    exact h.kept m sl hm hsl hz
  · obtain ⟨sl, hsl, heq⟩ := h.taken z ((hstill.same.used z).mp hz) hold
    exact ⟨sl, hsl, (hstill.same.slotZone dir sl).trans heq⟩

theorem Dev.Undone.of_still (hstill : Still s s₁) (h : Undone s₁ dir s₂) : Undone s dir s₂ := by
  have hinode := hstill.same.inode
  have halike := hstill.alike dir
  refine ⟨h.imap.trans hstill.same.imap, h.entries.trans (liveEntries_file halike.file halike.size),
    h.size.trans halike.size, fun m hm => ?_, ?_, h.consistent, fun m sl hm hsl hz => ?_, fun z hz hold => ?_⟩
  · rw [← hinode]
    exact h.links m (by rw [hstill.same.imap]; exact hm)
  · rw [← hinode]
    exact h.count
  · rw [← hstill.same.slotZone] at hz ⊢
    exact h.kept m sl (by rw [hstill.zoned]; exact hm) hsl hz
  · exact h.taken z hz fun hused => hold ((hstill.same.used z).mp hused)

/-- The dirty inodes, the directory's and those that the device has can be written back. -/
structure Core.Able (t : Core) (dir : Nat) : Prop where
  sheds : ∀ j < nrInode, t.Sheds j
  legible : ∀ n, n = dir ∨ t.InRange n → t.Readable (t.inodeBlock n)

theorem inodeBlock_super (hsuper : t'.super = t.super) (n : Nat) : t'.inodeBlock n = t.inodeBlock n := by
  unfold Core.inodeBlock
  rw [hsuper]

/-- The directory and inodes of the device may get dirty. -/
theorem Core.Able.of (h : t.Able dir) (hslot : ∀ j, t'.slot j = t.slot j ∨ (t'.slot j).dirt = false ∨
      ∃ m dirt, t'.slot j = .own m dirt ∧ (m = dir ∨ t.InRange m))
    (hsuper : t'.super = t.super) (hread : ∀ b, t.Readable b → t'.Readable b) : t'.Able dir := by
  refine ⟨fun j hj => ?_, fun m hm => ?_⟩
  · rcases hslot j with heq | hclean | ⟨m, dirt, heq, hm⟩
    · exact (h.sheds j hj).keep (.inl heq) hsuper hread
    · exact (h.sheds j hj).keep (.inr hclean) hsuper hread
    · unfold Core.Sheds
      rw [heq]
      exact fun _ => by rw [inodeBlock_super hsuper]; exact hread _ (h.legible m hm)
  · rw [inodeBlock_super hsuper]
    refine hread _ (h.legible m (hm.imp_right ?_))
    unfold Dev.InRange
    rw [hsuper]
    exact id

theorem Core.Able.lets (h : t.Able dir) : t.Lets dir := .inr (.inr fun _ => h.legible dir (.inl rfl))

/-- The new inode is dirty, in a slot of its own, and nothing else happens but that another one is written back. -/
theorem newInode_spec (hs : t.super.Sound) (hzero : t.imap 0 = true) (euid egid : Nat) :
    Post (t.newInode euid egid)
      (fun r => t.Vacant ∧ r.2.dev = t.dev ∧ ∃ d, Still t.toDev d ∧
        (r.1 = none ∧ t.NoInode ∧ r.2.toDev = d ∧ (∀ m, 0 < (t.inode m).iCount → r.2.dirt m = t.dirt m) ∧
            t.Calm r.2 ∨
          ∃ n, r.1 = some n ∧ ¬ t.NoInode ∧
            Born d n { Inode.zero with iCount := 1, iNlinks := 1, iUid := euid, iGid := egid } r.2.toDev ∧
            (∀ m ≠ n, 0 < (t.inode m).iCount → r.2.dirt m = t.dirt m) ∧
            ∀ j, r.2.slot j = t.slot j ∨ (r.2.slot j).dirt = false ∨ r.2.slot j = .own n true))
      (fun _ => ¬ t.Vacant) := by
  have hcover := hs.imap_cover
  have hblocks := hs.imap_le
  -- the inodes before the first zero bit are taken
  have hfull : (∀ a j, scanMap t.imap t.super.sImapBlocks 8 0 = some (a, j) → t.super.sNinodes < 8192 * a + j) →
      t.NoInode := by
    intro hlate m _ hm
    have hblock : m / 8192 < t.super.sImapBlocks := by omega
    refine scanMap_first (n := 8) (i := 0) (Nat.zero_le _) (by omega) hblock fun a j h => ?_
    exact Nat.lt_of_le_of_lt hm (hlate a j h)
  unfold Core.newInode
  refine Post.bind (Core.getEmptyInode_spec t) ?_
  rintro ⟨j, t₁⟩ ⟨hvacant, hstill, hcalm, hempty, hdirt⟩
  dsimp only at hstill hcalm hempty hdirt ⊢
  have himap : t₁.imap = t.imap := hstill.same.imap
  have hsuper : t₁.super = t.super := hstill.same.super
  have hother : ∀ m dirt, t₁.slot j ≠ .own m dirt := fun m dirt h => by rw [hempty] at h; cases h
  -- without an inode the slot is given back
  have hback : t.Calm (t₁.setSlot j (.empty 0)) := hcalm.trans (Core.calm_setSlot rfl j t₁)
  have hdirt' : ∀ m, 0 < (t.inode m).iCount → (t₁.setSlot j (.empty 0)).dirt m = t.dirt m :=
    fun m hm => (Core.dirt_setSlot (hother m) fun h => by cases h).trans (hdirt m hm)
  rw [himap, hsuper]
  split
  · next hscan =>
    refine Post.ret ⟨hvacant, hcalm.dev, t₁.toDev, hstill, .inl ⟨rfl, hfull fun a i h => ?_, rfl, hdirt', hback⟩⟩
    rw [hscan] at h
    cases h
  · next a i hscan =>
    obtain ⟨ha, hi, hbit⟩ := scanMap_some hscan
    split
    · next hout =>
      refine Post.ret ⟨hvacant, hcalm.dev, t₁.toDev, hstill,
        .inl ⟨rfl, hfull fun a' i' h => ?_, rfl, hdirt', hback⟩⟩
      rw [hscan] at h
      cases h
      omega
    · next hin =>
      rw [if_neg (by rw [hbit]; exact Bool.false_ne_true)]
      have hpos : 8192 * a + i ≠ 0 := by
        intro h0
        rw [h0, hzero] at hbit
        cases hbit
      have hsum : i + a * 8192 = 8192 * a + i := by omega
      rw [hsum]
      refine Post.ret ⟨hvacant, hcalm.dev, t₁.toDev, hstill, .inr ⟨_, rfl, fun hno => ?_, ⟨?_, ?_, ?_⟩, fun m hm hcount => ?_,
        fun k => ?_⟩⟩
      · rw [hno _ (by omega) (by omega)] at hbit
        cases hbit
      · rw [himap]
        exact hbit
      · unfold Dev.InRange
        rw [hsuper]
        exact ⟨by omega, by omega, by omega⟩
      · show Dev.setInode _ _ { t₁.toDev with super := t.super, imap := Function.update t.imap _ true } = _
        rw [← hsuper, himap]
        rfl
      · refine Eq.trans ?_ (hdirt m hcount)
        exact Core.dirt_setSlot (s := t₁.withDev _) (hother m) fun h => hm (by cases h; rfl)
      · show Function.update t₁.slot j _ k = _ ∨ (Function.update t₁.slot j _ k).dirt = false ∨ _
        by_cases hk : k = j
        · rw [hk, Function.update_self]
          exact .inr (.inr (Function.update_self ..))
        · rw [Function.update_of_ne hk]
          exact (hcalm.slot k).imp_right .inl

/-- `iput` of a directory that has links -/
theorem iput_dir (hcount : 0 < (t.inode dir).iCount) (hlinks : (t.inode dir).iNlinks ≠ 0)
    (hdir : isDir (t.inode dir).iMode = true) :
    Post (t.iput dir)
      (fun t' => t.Lets dir ∧ t.Calm t' ∧ Still (t.toDev.setCount dir ((t.inode dir).iCount - 1)) t'.toDev)
      (fun _ => ¬ t.Lets dir) := by
  have hblk : isBlk (t.inode dir).iMode = false := by
    unfold isDir at hdir
    unfold isBlk
    rw [beq_iff_eq.mp hdir]
    decide
  have hput : ∀ d, Still t.toDev d → d.iput dir = .ok (d.setCount dir ((t.inode dir).iCount - 1)) := by
    intro d hstill
    have hinode := hstill.same.inode
    rw [iput_linked (by rw [hinode]; exact hcount) (by rw [hinode]; exact hlinks), hinode]
  rw [Core.iput_eq (Nat.ne_of_gt hcount) hblk]
  refine (Core.iputAgain_spec (Nat.ne_of_gt hcount)).mono ?_ ?_
  · rintro t' ⟨hlets, hcalm, d, hstill, heq⟩
    rw [hput d hstill] at heq
    refine ⟨hlets, hcalm, ?_⟩
    rw [← Except.ok.inj heq]
    have hself : (t.toDev.setCount dir ((t.inode dir).iCount - 1)) =
        t.toDev.setInode dir { t.inode dir with iCount := (t.inode dir).iCount - 1 } := rfl
    rw [hself, Dev.setCount, hstill.same.inode]
    exact hstill.setInode dir _
  · rintro text (hlets | ⟨d, hstill, heq⟩)
    · exact hlets
    · rw [hput d hstill] at heq
      cases heq

/-- What `iput` of a block device needs. -/
def Core.Syncs (t : Core) (i : Inode) : Prop :=
  isBlk i.iMode = true →
    (∀ j < nrInode, t.Sheds j) ∧ t.cache.Coherent ∧ (i.iZone 0 = t.dev → ∀ b, t.cache.works b = true)

/-- `iput` of an inode that goes with its last reference -/
theorem iput_new (hinode : t.inode n = i) (hbare : Bare i) (hrange : t.InRange n) (hsync : t.Syncs i) :
    Post (t.iput n)
      (fun t' => t.Calm t' ∧ Still { t.toDev with
        imap := Function.update t.imap n false, inode := Function.update t.inode n Inode.zero } t'.toDev)
      (fun _ => False) := by
  have hput : ∀ d, Still t.toDev d → d.iput n = .ok { d with
      imap := Function.update d.imap n false, inode := Function.update d.inode n Inode.zero } := by
    intro d hstill
    refine iput_bare ?_ ?_
    · rw [hstill.same.inode, hinode]
      exact hbare
    · unfold Dev.InRange
      rw [hstill.same.super]
      exact hrange
  refine (Core.iput_spec (by rw [hinode, hbare.count]; exact Nat.one_ne_zero) (by rw [hinode]; exact hsync)).mono ?_ ?_
  · rintro t' ⟨hcalm, d, hstill, heq⟩
    rw [hput d hstill] at heq
    refine ⟨hcalm, ?_⟩
    rw [← Except.ok.inj heq, hstill.same.imap, hstill.same.inode]
    exact hstill.put _ _
  · rintro text (hlets | ⟨d, hstill, heq⟩)
    · exact hlets (.inr (.inl (by rw [hinode]; exact hbare.links)))
    · rw [hput d hstill] at heq
      cases heq

/-- `iput(dir); iput(inode)` -/
theorem still_dir_inode (hne : dir ≠ n) (h₁ : Still (s.setCount dir ((s.inode dir).iCount - 1)) s₁)
    (h₂ : Still { s₁.setInode n i with
      imap := Function.update (s₁.setInode n i).imap n false
      inode := Function.update (s₁.setInode n i).inode n Inode.zero } s₂) : Still (s.withdraw n dir) s₂ := by
  have hput := h₁.put (Function.update s.imap n false)
    (Function.update (s.setCount dir ((s.inode dir).iCount - 1)).inode n Inode.zero)
  have hsame : s₁.imap = s.imap := h₁.same.imap
  refine Still.trans ?_ (hput.trans ?_)
  · unfold Dev.withdraw Dev.setCount Dev.setInode
    rw [Function.update_comm hne]
    exact .refl _
  · rw [← h₁.same.inode, ← hsame]
    unfold Dev.setInode at h₂
    simp only [Function.update_idem] at h₂
    exact h₂

/-! ## `open_namei` and `sys_mknod` -/

/-- After a failed `add_entry` the inode is as it was, and the directory can be let go. -/
theorem Grown.settled {zoned : Nat → Prop} (hgrown : Grown zoned dir s₁ s₂) (hdir : s.Parent dir)
    (hborn : Born s n i s₁) :
    s₂.inode n = i ∧ s₂.InRange n ∧ 0 < (s₂.inode dir).iCount ∧ (s₂.inode dir).iNlinks ≠ 0 := by
  have hne := hborn.ne_used hdir.used
  obtain ⟨zone, hzone⟩ := hgrown.inode_self
  have hsuper : s₂.super = s.super := by rw [hgrown.super, hborn.eq]
  refine ⟨by rw [hgrown.inode_ne n hne.symm, hborn.inode_self], ?_, ?_, ?_⟩
  · unfold Dev.InRange
    rw [hsuper]
    exact hborn.range
  · rw [hzone, hborn.inode_ne hne]
    exact hdir.held
  · rw [hzone, hborn.inode_ne hne]
    exact hdir.linked

theorem held_modify (b : Nat) (f : (Nat → UInt8) → Nat → UInt8) (s : Dev) : (s.modify b f).held = s.held :=
  held_data ..

/-- A new entry gets its number and its buffer is let go. -/
theorem Placed.brelse {b : Nat} (h : Placed s₁ dir b s₂) (f : (Nat → UInt8) → Nat → UInt8)
    (hheld : s'.held = (s₂.modify b f).held) : Post (s'.brelse b) (fun s'' => s''.inode = s'.inode) (fun _ => False) := by
  have hone : s'.held b = s₁.held b + 1 := by rw [hheld, held_modify, h.held, Function.update_self]
  exact (brelse_spec hone).imp fun _ hr => hr.1.inode

/-- There is no inode, or the directory cannot be extended. -/
def Dev.CreateFails (s : Dev) (dir : Nat) : Prop := s.NoInode ∨ ¬ s.Room dir s.spare

theorem Dev.Still.createFails (h : Still s s') (hs : s.Consistent) (hdir : s.Parent dir) :
    s'.CreateFails dir ↔ s.CreateFails dir := by
  unfold Dev.CreateFails
  rw [h.noInode, h.same.spare, (h.alike dir).room hs.zones hdir.zoned]

theorem Dev.Still.fits (h : Still s s') (hs : s.Consistent) (hdir : s.Parent dir) (hinodes : ¬ s.NoInode)
    (hroom : s'.Room dir s'.spare) : ¬ s.CreateFails dir := by
  rw [← h.createFails hs hdir]
  rintro (hno | hfull)
  · exact hinodes (h.noInode.mp hno)
  · exact hfull hroom

/-- Only the slot of the directory may change. -/
theorem addEntry_core {name : List UInt8} {P : Option (Nat × Nat) × Dev → Prop} {Q : Panic → Prop}
    (h : Post (t.toDev.addEntry dir name) P Q) :
    Post (t.addEntry dir name)
      (fun r => (∀ j, r.2.slot j = t.slot j ∨ ∃ dirt, r.2.slot j = .own dir dirt) ∧ r.2.dev = t.dev ∧
        P (r.1, r.2.toDev)) Q := by
  unfold Core.addEntry
  refine Post.bind (Core.lift_spec h) ?_
  rintro _ ⟨place, d, rfl, hplace⟩
  dsimp only
  split
  · refine Post.ret ⟨fun j => ?_, rfl, hplace⟩
    show (t.slot j).setDirt dir true = t.slot j ∨ ∃ dirt, (t.slot j).setDirt dir true = .own dir dirt
    cases t.slot j with
    | own m old =>
      by_cases hm : m = dir
      · rw [hm]
        exact .inr ⟨true, congrArg _ (if_pos rfl)⟩
      · exact .inl (congrArg _ (if_neg hm))
    | other e => exact .inl rfl
  · exact Post.ret ⟨fun j => .inl rfl, rfl, hplace⟩

/-- The type of a new file or directory. -/
theorem fmt_new (type mode umask : Nat) : (type ||| (mode &&& 0o777).ldiff umask) &&& 0xF000 = type &&& 0xF000 := by
  apply Nat.eq_of_testBit_eq
  intro k
  have hmask : (Nat.testBit 0o777 k && Nat.testBit 0xF000 k) = false := by
    rw [← Nat.testBit_and]
    exact Nat.zero_testBit k
  rw [Nat.testBit_and, Nat.testBit_or, Nat.testBit_ldiff, Nat.testBit_and, Nat.testBit_and]
  grind

/-- The new inode and the directory are dirty. -/
theorem Core.Able.grown {t₁ t₂ : Core} (h : t.Able dir) (hrange : t.InRange n)
    (hnew : ∀ j, t₁.slot j = t.slot j ∨ (t₁.slot j).dirt = false ∨ t₁.slot j = .own n true)
    (hadd : ∀ j, t₂.slot j = t₁.slot j ∨ ∃ dirt, t₂.slot j = .own dir dirt) (hsuper : t₂.super = t.super)
    (hread : ∀ b, t.Readable b → t₂.Readable b) : t₂.Able dir := by
  refine h.of (fun j => ?_) hsuper hread
  rcases hadd j with heq | ⟨dirt, heq⟩
  · rw [heq]
    exact (hnew j).imp_right (Or.imp_right fun hown => ⟨n, true, hown, .inr hrange⟩)
  · exact .inr (.inr ⟨dir, dirt, heq, .inl rfl⟩)

theorem Core.Able.still (h : t.Able dir) (hcalm : t.Calm t') (hsuper : t'.super = t.super)
    (hread : ∀ b, t.Readable b → t'.Readable b) : t'.Able dir :=
  h.of (fun j => (hcalm.slot j).imp_right .inl) hsuper hread

theorem Grown.folder {zoned : Nat → Prop} (hgrown : Grown zoned dir s₁ s₂) (hdir : s.Parent dir)
    (hborn : Born s n i s₁) : isDir (s₂.inode dir).iMode = true := by
  obtain ⟨zone, hzone⟩ := hgrown.inode_self
  rw [hzone, hborn.inode_ne (hborn.ne_used hdir.used)]
  exact hdir.folder

/-- `.` and `..` of inode 1, and 62 names of inode 2. -/
def fullBlock (p : Nat) : UInt8 :=
  if p % 16 = 0 then if p / 16 < 2 then 1 else 2
  else if p % 16 = 2 then if p / 16 < 2 then 46 else UInt8.ofNat (p / 16 + 62)
  else if p = 19 then 46
  else 0

/-- A file system whose root directory is one full block, zone 5. Zone 6 is free, if there is one. If the block has
been written, it is not on the disk yet. -/
def fullDirectory (zones : Nat) (works : Nat → Bool) (written : Bool) : Dev where
  cache :=
    ⟨fun b => if written = true ∧ b = 5 then some ⟨fullBlock, true, true, 0⟩ else none,
      fun b => if written = false ∧ b = 5 then fullBlock else fun _ => 0, works, fun _ _ => 0⟩
  super := ⟨3, zones, 1, 1, 5⟩
  zmap j := j != 2
  imap m := m != 3
  inode m :=
    if m = 1 then ⟨0o040755, 0, 0, 1024, 2, fun i => if i = 0 then 5 else 0, 1⟩
    else if m = 2 then ⟨0o100644, 0, 0, 0, 62, fun _ => 0, 0⟩
    else Inode.zero

section

variable {zones : Nat} {works : Nat → Bool} {written : Bool}

theorem full_slot (sl : Slot) : (fullDirectory zones works written).slotZone 1 sl = if sl = .zone 0 then 5 else 0 := by
  cases sl with
  | zone i =>
    show (if i = 0 then 5 else 0) = _
    simp only [Slot.zone.injEq]
  | ind k => rfl
  | dind k => rfl
  | leaf k l => rfl

theorem full_head (b : Nat) : (fullDirectory zones works written).cache.head b =
    if written = true ∧ b = 5 then ⟨fullBlock, true, true, 0⟩ else ⟨fun _ => 0, false, false, 0⟩ := by
  show (if written = true ∧ b = 5 then some _ else none : Option Buffer).getD _ = _
  split <;> rfl

theorem full_contents : (fullDirectory zones works written).contents 5 = fullBlock := by
  unfold Dev.contents Cache.contents
  rw [full_head]
  cases written with
  | false => rfl
  | true => rfl

theorem full_held (b : Nat) : (fullDirectory zones works written).held b = 0 := by
  unfold Dev.held Cache.held
  rw [full_head]
  split <;> rfl

theorem full_coherent : (fullDirectory zones works written).cache.Coherent := by
  refine ⟨fun b => ?_, fun b => ?_⟩
  · rw [full_head]
    split
    · exact fun _ hclean => by cases hclean
    · exact fun hup => by cases hup
  · rw [full_head]
    split
    · exact fun _ => rfl
    · exact fun hdirt => by cases hdirt

theorem full_dir : isDir ((fullDirectory zones works written).inode 1).iMode = true := by
  show isDir 0o040755 = true
  decide

theorem full_used (hzones : zones = 6 ∨ zones = 7) (z : Nat) : (fullDirectory zones works written).Used z ↔ z = 5 := by
  have hbit : (fullDirectory zones works written).zmap (z - 4) = true ↔ z - 4 ≠ 2 := bne_iff_ne
  have hused : (fullDirectory zones works written).Used z ↔ 5 ≤ z ∧ z < zones ∧ z - 4 ≠ 2 := by
    rw [← hbit]
    rfl
  rw [hused]
  omega

theorem full_refers (r : Nat × Slot) (z : Nat) :
    Refers (fullDirectory zones works written).zoned noDead (fullDirectory zones works written) r z ↔ r = (1, .zone 0) ∧ z = 5 := by
  obtain ⟨m, sl⟩ := r
  constructor
  · rintro ⟨hm, -, -, heq, hz⟩
    simp only at heq hm
    by_cases h1 : m = 1
    · rw [h1, full_slot] at heq
      split at heq
      · next hsl => exact ⟨by rw [h1, hsl], heq.symm⟩
      · exact absurd heq.symm hz
    · -- the other inodes have no zones
      have hempty : ((fullDirectory zones works written).inode m).iZone = fun _ => 0 := by
        show (if m = 1 then _ else if m = 2 then _ else Inode.zero : Inode).iZone = _
        rw [if_neg h1]
        split <;> rfl
      rw [slotZone_none hempty] at heq
      exact absurd heq.symm hz
  · rintro ⟨hr, rfl⟩
    cases hr
    refine ⟨⟨rfl, Or.inr full_dir⟩, ?_, id, full_slot _, by omega⟩
    show 0 < 9
    omega

theorem full_consistent (hzones : zones = 6 ∨ zones = 7) : (fullDirectory zones works written).Consistent := by
  refine ⟨⟨?_, rfl, ?_, fun _ _ _ _ _ h => h, fun z _ _ _ => full_held z, full_coherent⟩, rfl⟩
  · show Super.Sound ⟨3, zones, 1, 1, 5⟩
    rcases hzones with rfl | rfl
    · exact ⟨by decide, by decide, by decide, by decide, by decide, by decide, by decide⟩
    · exact ⟨by decide, by decide, by decide, by decide, by decide, by decide, by decide⟩
  · refine ⟨fun r r' z hr hr' => ?_, fun r z hr => ?_, fun _ z hz => ⟨(1, .zone 0), ?_⟩⟩
    · rw [full_refers] at hr hr'
      rw [hr.1, hr'.1]
    · rw [full_refers] at hr
      exact (full_used hzones z).mpr hr.2
    · exact (full_refers _ z).mpr ⟨rfl, (full_used hzones z).mp hz⟩

theorem full_parent (hread : written = true ∨ works 5 = true) :
    (fullDirectory zones works written).Parent 1 := by
  refine ⟨rfl, full_dir, ?_, Nat.one_pos, fun sl _ hz => ?_⟩
  · show (2 : UInt8) ≠ 0
    decide
  · rw [full_slot] at hz ⊢
    split at hz
    · next hsl =>
      rw [if_pos hsl]
      unfold Dev.Readable
      rw [full_head]
      rcases hread with rfl | hworks
      · exact .inl rfl
      · exact .inr hworks
    · exact absurd rfl hz

/-- All 64 entries are taken. -/
theorem full_firstFree : (fullDirectory zones works written).FirstFree 1 64 := by
  refine ⟨Or.inl (Nat.le_refl 1024), fun j hj => ?_⟩
  rintro (hend | hfree)
  · have hsize : 1024 ≤ 16 * j := hend
    omega
  · have hbyte : (fullDirectory zones works written).fileByte 1 (2 * (8 * j)) = if j < 2 then 1 else 2 := by
      unfold Dev.fileByte
      rw [show 2 * (8 * j) / 1024 = 0 by omega, show 2 * (8 * j) % 1024 = 16 * j by omega]
      show (fullDirectory zones works written).contents 5 (16 * j) = _
      rw [full_contents]
      unfold fullBlock
      rw [if_pos (by omega), show 16 * j / 16 = j by omega]
    unfold Dev.entryNr Dev.word at hfree
    rw [hbyte] at hfree
    split at hfree
    · exact absurd hfree (by simp)
    · exact absurd hfree (by simp)

theorem full_room : ¬ (fullDirectory zones works written).Room 1 0 := by
  intro hroom
  have hmissing : (fullDirectory zones works written).missing 1 (Slot.ofBlock (64 / 64)) = 1 := by
    show List.countP (fun p => (fullDirectory zones works written).slotZone 1 p = 0) [.zone 1] = 1
    simp [full_slot]
  have hle := hroom.2 64 full_firstFree
  rw [hmissing] at hle
  exact absurd hle (by decide)

end

/-- `inode_table` with the root directory in slot 0, and `e` in the others -/
def inTable (s : Dev) (dirt : Bool) (e : InodeSlot) : Core := ⟨s, 0x301, fun j => if j = 0 then .own 1 dirt else e, 0⟩

/-- The reason for stopping. -/
def reason {α : Type} : Except Panic α → Option Panic
  | .error e => some e
  | .ok _ => none

theorem full_able : (inTable (fullDirectory 6 (fun _ => true) false) false (.empty 0)).Able 1 := by
  refine ⟨fun j _ => ?_, fun _ _ => .inr rfl⟩
  unfold Core.Sheds inTable
  dsimp only
  split
  · next hslot =>
    split at hslot
    · cases hslot
      exact fun h => by cases h
    · cases hslot
  · next hslot =>
    split at hslot
    · cases hslot
    · cases hslot
      exact fun h => by cases h

end Linux011.Fs
