import Mathlib.Algebra.Group.Nat.Defs
import Linux011.Fs.EmptyInode

/-!
# The inodes in core

`new_inode` and `iput` on one device, with the slots of `inode_table` behind them. A slot has an inode of the
device, whose fields are in `Dev.inode`, or something else: nothing, a pipe, or an inode of another device. The
call has the kernel for itself, so that no inode is locked. What `write_inode` puts into the blocks of the inodes is
in `Dev.inode`, too.

Up to the buffers of these blocks `iput` is `Dev.iput`, unless `write_inode` panics (`iput_spec`).
-/

namespace Linux011.Fs

open Linux011.Lib

/-- What a slot without an inode of the device has. -/
structure Foreign where
  iDev : Option Bool                 -- for an inode of another device, whether its block can be read
  iCount : Nat
  iDirt : Bool
  iPipe : Bool

inductive InodeSlot where
  | own (num : Nat) (dirt : Bool)
  | other (i : Foreign)

namespace InodeSlot

/-- No inode, with `i_count` -/
def empty (count : Nat) : InodeSlot := .other ⟨none, count, false, false⟩

def dirt : InodeSlot → Bool
  | own _ dirt => dirt
  | other i => i.iDirt

def pipe : InodeSlot → Bool
  | own _ _ => false
  | other i => i.iPipe

/-- `i_dirt` of the inode `n` of the device -/
def setDirt (n : Nat) (dirt : Bool) : InodeSlot → InodeSlot
  | own m old => own m (if m = n then dirt else old)
  | other i => other i

/-- `memset` of the inode `n` of the device, in `free_inode` -/
def zero (n : Nat) : InodeSlot → InodeSlot
  | own m old => if m = n then empty 0 else own m old
  | other i => other i

end InodeSlot

/-- The file system of the device `dev` and `inode_table`. -/
structure Core extends Dev where
  dev : Nat
  slot : Nat → InodeSlot
  lastInode : Nat

namespace Core

variable {α : Type}

def withDev (d : Dev) (s : Core) : Core := { s with toDev := d }

/-- What does not look at the table. -/
def lift (f : Dev → Except Panic (α × Dev)) (s : Core) : Except Panic (α × Core) := do
  let r ← f s.toDev
  return (r.1, s.withDev r.2)

def act (f : Dev → Except Panic Dev) (s : Core) : Except Panic Core := do
  let d ← f s.toDev
  return s.withDev d

def setInode (n : Nat) (i : Inode) (s : Core) : Core := s.withDev (s.toDev.setInode n i)

def setZone (n k z : Nat) (s : Core) : Core := s.withDev (s.toDev.setZone n k z)

def modify (b : Nat) (f : (Nat → UInt8) → Nat → UInt8) (s : Core) : Core := s.withDev (s.toDev.modify b f)

def setSlot (j : Nat) (e : InodeSlot) (s : Core) : Core := { s with slot := Function.update s.slot j e }

/-- The `i_count` of a slot. -/
def slotCount (s : Core) (j : Nat) : Nat :=
  match s.slot j with
  | .own n _ => (s.inode n).iCount
  | .other i => i.iCount

/-- The inode `n` of the device is dirty. -/
def dirt (s : Core) (n : Nat) : Bool :=
  (List.range nrInode).any fun j =>
    match s.slot j with
    | .own m dirt => m == n && dirt
    | .other _ => false

def setDirt (n : Nat) (dirt : Bool) (s : Core) : Core := { s with slot := fun j => (s.slot j).setDirt n dirt }

def zeroSlot (n : Nat) (s : Core) : Core := { s with slot := fun j => (s.slot j).zero n }

def inodeBlock (s : Core) (n : Nat) : Nat := 2 + s.super.sImapBlocks + s.super.sZmapBlocks + (n - 1) / 32

/-- `write_inode` of a dirty inode of the device -/
def writeInode (n : Nat) (s : Core) : Except Panic Core := do
  let b := s.inodeBlock n
  let r ← s.lift (Dev.bread b)
  if r.1 then
    let s ← (r.2.modify b id).act (Dev.brelse b)
    return s.setDirt n false
  else .error "unable to read i-node block"

/-- `write_inode` of any slot. Without a device the inode stays dirty. -/
def writeSlot (j : Nat) (s : Core) : Except Panic Core :=
  match s.slot j with
  | .own n true => s.writeInode n
  | .own _ false => .ok s
  | .other i =>
    if i.iDirt then
      match i.iDev with
      | none => .ok s
      | some true => .ok (s.setSlot j (.other { i with iDirt := false }))
      | some false => .error "unable to read i-node block"
    else .ok s

def syncInodes (s : Core) : Except Panic Core :=
  (List.range nrInode).foldlM (fun s j => if (s.slot j).pipe then .ok s else s.writeSlot j) s

def flushDev (dev : Nat) (s : Core) : Core :=
  if dev = s.dev then s.withDev { s.toDev with cache := s.cache.flush } else s

def syncDev (dev : Nat) (s : Core) : Except Panic Core := do
  let s ← (s.flushDev dev).syncInodes
  return s.flushDev dev

/-- The `for` loop of `get_empty_inode`, with `k` turns to go: the choice, and `last_inode`. -/
def pick (s : Core) : (k last : Nat) → Option Nat → Option Nat × Nat
  | 0, last, inode => (inode, last)
  | k + 1, last, inode =>
    let last := if nrInode ≤ last + 1 then 0 else last + 1
    if s.slotCount last = 0 then
      if !(s.slot last).dirt then (some last, last) else s.pick k last (some last)
    else s.pick k last inode

/-- `get_empty_inode`, with the slot. It comes to no end if the inode stays dirty. -/
def getEmptyInode (s : Core) : Except Panic (Nat × Core) :=
  match s.pick nrInode s.lastInode none with
  | (none, _) => .error "No free inodes in mem"
  | (some j, last) => do
    let s ← ({ s with lastInode := last } : Core).writeSlot j
    if (s.slot j).dirt then .error "get_empty_inode: no end"
    else return (j, s.setSlot j (.empty 1))

/-- `new_inode` for a process with `euid` and `egid`, with `none` when there is no free inode. The slot is given
back then: it has no device yet, so that `iput` only lowers its count. -/
def newInode (euid egid : Nat) (s : Core) : Except Panic (Option Nat × Core) := do
  let r ← s.getEmptyInode
  let s := r.2
  match Dev.scanMap s.imap s.super.sImapBlocks 8 0 with
  | none => return (none, s.setSlot r.1 (.empty 0))
  | some (i, j) =>
    if s.super.sNinodes < j + i * 8192 then return (none, s.setSlot r.1 (.empty 0))
    else if s.imap (8192 * i + j) then .error "new_inode: bit already set"
    else
      let n := j + i * 8192
      let d := { s.toDev with imap := Function.update s.imap (8192 * i + j) true }
      let inode := { Inode.zero with iCount := 1, iNlinks := 1, iUid := euid, iGid := egid }
      return (some n, (s.withDev (d.setInode n inode)).setSlot r.1 (.own n true))

/-- `iput`, from the label `repeat` on. -/
def iputAgain (n : Nat) (s : Core) : Except Panic Core :=
  if 1 < (s.inode n).iCount then .ok (s.withDev (s.toDev.setCount n ((s.inode n).iCount - 1)))
  else if (s.inode n).iNlinks = 0 then do
    let s ← s.act (Dev.truncate n)
    let s ← s.act (Dev.freeInode n)
    return s.zeroSlot n
  else do
    let s ← if s.dirt n then s.writeInode n else .ok s
    return s.withDev (s.toDev.setCount n ((s.inode n).iCount - 1))

/-- `iput` of an inode of the device -/
def iput (n : Nat) (s : Core) : Except Panic Core :=
  if (s.inode n).iCount = 0 then .error "iput: trying to free free inode"
  else if isBlk (s.inode n).iMode then do
    let s ← s.syncDev ((s.inode n).iZone 0)
    s.iputAgain n
  else s.iputAgain n

/-! ## What the operations need -/

/-- `write_inode` leaves the slot clean. -/
def Sheds (s : Core) (j : Nat) : Prop :=
  match s.slot j with
  | .own n dirt => dirt = true → s.Readable (s.inodeBlock n)
  | .other i => i.iDirt = true → i.iDev = some true

/-- `get_empty_inode` has a slot to give: there is a free one, and the one that it picks is clean or can be
written back. -/
def Vacant (s : Core) : Prop := ∃ j last, s.pick nrInode s.lastInode none = (some j, last) ∧ s.Sheds j

/-- `iput` does not have to write an inode whose block cannot be read. -/
def Lets (s : Core) (n : Nat) : Prop :=
  1 < (s.inode n).iCount ∨ (s.inode n).iNlinks = 0 ∨ (s.dirt n = true → s.Readable (s.inodeBlock n))

/-- The slots are as they were, or clean. -/
structure Calm (s s' : Core) : Prop where
  slot : ∀ j, s'.slot j = s.slot j ∨ (s'.slot j).dirt = false
  dev : s'.dev = s.dev

end Core

/-- The file system is the same, and no buffer is held or let go. -/
structure Dev.Still (s s' : Dev) : Prop where
  same : Dev.Same s s'
  held : s'.held = s.held
  readable : ∀ b, s'.Readable b ↔ s.Readable b

namespace Dev.Still

variable {s s' s'' : Dev}

theorem refl (s : Dev) : Still s s := ⟨.refl s, rfl, fun _ => Iff.rfl⟩

theorem trans (h : Still s s') (h' : Still s' s'') : Still s s'' :=
  ⟨h.same.trans h'.same, h'.held.trans h.held, fun b => (h'.readable b).trans (h.readable b)⟩

/-- A change of the bitmap and of inodes does not look at the buffers. -/
theorem put (h : Still s s') (imap : Nat → Bool) (inode : Nat → Inode) :
    Still { s with imap, inode } { s' with imap, inode } :=
  ⟨⟨h.same.cache, h.same.super, h.same.zmap, rfl, rfl⟩, h.held, h.readable⟩

theorem setInode (h : Still s s') (n : Nat) (i : Inode) : Still (s.setInode n i) (s'.setInode n i) := by
  have hput := h.put s.imap (Function.update s.inode n i)
  unfold Dev.setInode
  rw [h.same.inode]
  exact ⟨⟨hput.same.cache, hput.same.super, hput.same.zmap, h.same.imap, rfl⟩, hput.held, hput.readable⟩

/-- A buffer that is up to date becomes dirty. -/
theorem modify {b : Nat} (hup : (s.cache.head b).uptodate = true) : Still s (s.modify b id) := by
  have hwrote := Cache.modify_spec id hup
  refine ⟨⟨⟨?_, hwrote.works, hwrote.uptodate, hwrote.coherent⟩, rfl, rfl, rfl, rfl⟩, hwrote.held, fun z => ?_⟩
  · show (s.cache.modify b id).contents = _
    rw [hwrote.contents]
    exact Function.update_eq_self b _
  · have hhead : ((s.modify b id).cache.head z).uptodate = (s.cache.head z).uptodate := by
      show ((s.cache.set b _).head z).uptodate = _
      by_cases hz : z = b
      · rw [hz, Cache.head_set_self]
      · rw [Cache.head_set_of_ne hz]
    unfold Readable
    rw [hhead]
    rfl

theorem flush (hworks : ∀ b, s.cache.works b = true) (hc : s.cache.Coherent) :
    Still s { s with cache := s.cache.flush } := by
  obtain ⟨hsame, hheld⟩ := Cache.same_flush hworks hc
  exact ⟨⟨hsame, rfl, rfl, rfl, rfl⟩, hheld, fun b => ⟨fun _ => .inr (hworks b), fun _ => .inr (hworks b)⟩⟩

end Dev.Still

namespace Core

variable {α : Type} {s s' s'' : Core} {n j : Nat}

theorem Calm.refl (s : Core) : s.Calm s := ⟨fun _ => .inl rfl, rfl⟩

theorem Calm.trans (h : s.Calm s') (h' : s'.Calm s'') : s.Calm s'' := by
  refine ⟨fun j => ?_, h'.dev.trans h.dev⟩
  rcases h'.slot j with heq | hclean
  · rw [heq]
    exact h.slot j
  · exact .inr hclean

theorem calm_withDev (d : Dev) (s : Core) : s.Calm (s.withDev d) := ⟨fun _ => .inl rfl, rfl⟩

theorem calm_setDirt (n : Nat) (s : Core) : s.Calm (s.setDirt n false) := by
  refine ⟨fun j => ?_, rfl⟩
  show (s.slot j).setDirt n false = s.slot j ∨ ((s.slot j).setDirt n false).dirt = false
  cases s.slot j with
  | own m old =>
    by_cases hm : m = n
    · exact .inr (if_pos hm)
    · exact .inl (congrArg _ (if_neg hm))
  | other i => exact .inl rfl

theorem calm_zeroSlot (n : Nat) (s : Core) : s.Calm (s.zeroSlot n) := by
  refine ⟨fun j => ?_, rfl⟩
  show (s.slot j).zero n = s.slot j ∨ ((s.slot j).zero n).dirt = false
  cases s.slot j with
  | own m old =>
    show (if m = n then _ else _) = _ ∨ InodeSlot.dirt (if m = n then _ else _) = _
    by_cases hm : m = n
    · rw [if_pos hm]
      exact .inr rfl
    · exact .inl (if_neg hm)
  | other i => exact .inl rfl

theorem calm_setSlot {e : InodeSlot} (hclean : e.dirt = false) (j : Nat) (s : Core) : s.Calm (s.setSlot j e) := by
  refine ⟨fun k => ?_, rfl⟩
  by_cases hk : k = j
  · refine .inr ?_
    rw [hk]
    show (Function.update s.slot j e j).dirt = false
    rw [Function.update_self]
    exact hclean
  · exact .inl (Function.update_of_ne hk ..)

theorem dirt_iff (s : Core) (n : Nat) : s.dirt n = true ↔ ∃ j < nrInode, s.slot j = .own n true := by
  unfold dirt
  rw [List.any_eq_true]
  constructor
  · rintro ⟨j, hj, hdirt⟩
    refine ⟨j, List.mem_range.mp hj, ?_⟩
    cases hslot : s.slot j with
    | own m old => simp_all
    | other i => simp [hslot] at hdirt
  · rintro ⟨j, hj, hslot⟩
    exact ⟨j, List.mem_range.mpr hj, by simp [hslot]⟩

theorem Calm.dirt (h : s.Calm s') (hdirt : s'.dirt n = true) : s.dirt n = true := by
  obtain ⟨j, hj, hslot⟩ := (dirt_iff s' n).mp hdirt
  rcases h.slot j with heq | hclean
  · exact (dirt_iff s n).mpr ⟨j, hj, heq ▸ hslot⟩
  · rw [hslot] at hclean
    cases hclean

/-- Only the slots that an inode of the device is in say whether it is dirty. -/
theorem dirt_congr (h : ∀ j, s'.slot j = .own n true ↔ s.slot j = .own n true) : s'.dirt n = s.dirt n := by
  rw [Bool.eq_iff_iff, dirt_iff, dirt_iff]
  simp only [h]

theorem dirt_setSlot {e : InodeSlot} (hold : ∀ dirt, s.slot j ≠ .own n dirt) (hnew : e ≠ .own n true) :
    (s.setSlot j e).dirt n = s.dirt n := by
  refine dirt_congr fun k => ?_
  show Function.update s.slot j e k = _ ↔ _
  by_cases hk : k = j
  · rw [hk, Function.update_self]
    exact ⟨fun h => absurd h hnew, fun h => absurd h (hold true)⟩
  · rw [Function.update_of_ne hk]

theorem dirt_setDirt {m : Nat} (hne : m ≠ n) (dirt : Bool) : (s.setDirt m dirt).dirt n = s.dirt n := by
  refine dirt_congr fun k => ?_
  show (s.slot k).setDirt m dirt = _ ↔ _
  cases s.slot k with
  | own l old =>
    by_cases hl : l = m
    · simp [InodeSlot.setDirt, hl, hne]
    · simp [InodeSlot.setDirt, hl]
  | other i => simp [InodeSlot.setDirt]

theorem Sheds.keep (h : s.Sheds j) (hslot : s'.slot j = s.slot j ∨ (s'.slot j).dirt = false)
    (hsuper : s'.super = s.super) (hread : ∀ b, s.Readable b → s'.Readable b) : s'.Sheds j := by
  have hblock : ∀ m, s'.inodeBlock m = s.inodeBlock m := fun m => by
    unfold inodeBlock
    rw [hsuper]
  unfold Sheds at h ⊢
  rcases hslot with heq | hclean
  · rw [heq]
    cases hslot : s.slot j with
    | own m dirt =>
      rw [hslot] at h
      exact fun hd => by rw [hblock]; exact hread _ (h hd)
    | other i =>
      rw [hslot] at h
      exact h
  · cases hslot : s'.slot j with
    | own m dirt =>
      rw [hslot] at hclean
      exact fun hd => by rw [show dirt = false from hclean] at hd; cases hd
    | other i =>
      rw [hslot] at hclean
      exact fun hd => by rw [show i.iDirt = false from hclean] at hd; cases hd

/-! ## `write_inode` -/

theorem lift_spec {f : Dev → Except Panic (α × Dev)} {P : α × Dev → Prop} {Q : Panic → Prop} (h : Post (f s.toDev) P Q) :
    Post (s.lift f) (fun r => ∃ a d, r = (a, s.withDev d) ∧ P (a, d)) Q :=
  Post.bind h fun r hr => Post.ret ⟨r.1, r.2, rfl, hr⟩

theorem act_ok {f : Dev → Except Panic Dev} {d : Dev} (h : f s.toDev = .ok d) : s.act f = .ok (s.withDev d) := by
  unfold act
  rw [h]
  rfl

theorem act_error {f : Dev → Except Panic Dev} {e : Panic} (h : f s.toDev = .error e) : s.act f = .error e := by
  unfold act
  rw [h]
  rfl

theorem act_spec {f : Dev → Except Panic Dev} {P : Dev → Prop} {Q : Panic → Prop} (h : Post (f s.toDev) P Q) :
    Post (s.act f) (fun s' => ∃ d, s' = s.withDev d ∧ P d) Q :=
  Post.bind h fun d hd => Post.ret ⟨d, rfl, hd⟩

theorem writeInode_spec (n : Nat) (s : Core) :
    Post (s.writeInode n)
      (fun s' => s.Readable (s.inodeBlock n) ∧ ∃ d, s' = (s.withDev d).setDirt n false ∧ Dev.Still s.toDev d)
      (fun _ => ¬ s.Readable (s.inodeBlock n)) := by
  unfold writeInode
  dsimp only
  refine Post.bind ((lift_spec (Dev.bread_readable _ _)).mono (fun _ h => h) fun _ h => h.elim) ?_
  rintro _ ⟨got, d, rfl, hsame, hread, hgot⟩
  rcases hgot with ⟨hb, hok, hup, hheld⟩ | ⟨hb, hfail, -⟩
  · have hmodify := Dev.Still.modify hup
    have hone : (d.modify (s.inodeBlock n) id).held (s.inodeBlock n) = s.held (s.inodeBlock n) + 1 := by
      rw [hmodify.held]
      exact (congrFun hheld _).trans (Function.update_self ..)
    cases hok
    refine Post.bind ((act_spec (Dev.brelse_readable hone)).mono (fun _ h => h) fun _ h => h.elim) ?_
    rintro _ ⟨d', rfl, hsame', hread', hheld'⟩
    refine Post.ret ⟨hb, d', rfl, (hsame.trans hmodify.same).trans hsame', ?_, fun z => ?_⟩
    · have hback : (d.modify (s.inodeBlock n) id).held = Function.update s.held _ _ := hmodify.held.trans hheld
      refine hheld'.trans ?_
      show Function.update (d.modify (s.inodeBlock n) id).held _ _ = _
      rw [hback, Function.update_idem, Function.update_eq_self]
    · exact ((hread' z).trans (hmodify.readable z)).trans (hread z)
  · cases hfail
    exact Post.stop hb

/-- A slot is written back, or it stays dirty. -/
theorem writeSlot_spec (j : Nat) (s : Core) :
    Post (s.writeSlot j)
      (fun s' => Dev.Still s.toDev s'.toDev ∧ s.Calm s' ∧ ((s'.slot j).dirt = false ↔ s.Sheds j) ∧
        ∀ n, (∀ dirt, s.slot j ≠ .own n dirt) → s'.dirt n = s.dirt n)
      (fun _ => ¬ s.Sheds j) := by
  unfold writeSlot Sheds
  cases hslot : s.slot j with
  | own n dirt =>
    cases dirt with
    | true =>
      dsimp only
      refine (writeInode_spec n s).mono ?_ fun _ hb h => hb (h rfl)
      rintro _ ⟨hb, d, rfl, hstill⟩
      refine ⟨hstill, (calm_withDev d s).trans (calm_setDirt n _), ?_, fun m hm => ?_⟩
      · have hclean : (((s.withDev d).setDirt n false).slot j).dirt = false := by
          show ((s.slot j).setDirt n false).dirt = false
          rw [hslot]
          exact if_pos rfl
        exact ⟨fun _ _ => hb, fun _ => hclean⟩
      · have hne : n ≠ m := fun heq => hm true (by rw [heq])
        exact dirt_setDirt (s := s.withDev d) hne false
    | false =>
      refine Post.ret ⟨.refl _, .refl _, ?_, fun _ _ => rfl⟩
      rw [hslot]
      exact ⟨fun _ h => (by cases h), fun _ => rfl⟩
  | other i =>
    have hother : ∀ m dirt, s.slot j ≠ .own m dirt := fun m dirt h => by
      rw [hslot] at h
      cases h
    dsimp only
    cases hdirt : i.iDirt with
    | true =>
      cases hdev : i.iDev with
      | none =>
        refine Post.ret ⟨.refl _, .refl _, ?_, fun _ _ => rfl⟩
        rw [hslot]
        show i.iDirt = false ↔ _
        rw [hdirt]
        exact ⟨fun h => (by cases h), fun h => (by cases h rfl)⟩
      | some got =>
        cases got with
        | true =>
          refine Post.ret ⟨.refl _, calm_setSlot rfl j s, ⟨fun _ _ => rfl, fun _ => ?_⟩, fun m _ => ?_⟩
          · show (Function.update s.slot j _ j).dirt = false
            rw [Function.update_self]
            rfl
          · exact dirt_setSlot (hother m) fun h => by cases h
        | false => exact Post.stop fun h => by cases h rfl
    | false =>
      refine Post.ret ⟨.refl _, .refl _, ?_, fun _ _ => rfl⟩
      rw [hslot]
      exact ⟨fun _ h => (by cases h), fun _ => hdirt⟩

/-! ## `get_empty_inode` -/

theorem pick_succ (k last : Nat) (inode : Option Nat) : s.pick (k + 1) last inode =
    if s.slotCount (ITable.nextInode last) = 0 then
      if !(s.slot (ITable.nextInode last)).dirt then (some (ITable.nextInode last), ITable.nextInode last)
      else s.pick k (ITable.nextInode last) (some (ITable.nextInode last))
    else s.pick k (ITable.nextInode last) inode := rfl

theorem pick_some {k last l : Nat} {inode : Option Nat}
    (hin : ∀ j, inode = some j → j < nrInode ∧ s.slotCount j = 0) (h : s.pick k last inode = (some j, l)) :
    j < nrInode ∧ s.slotCount j = 0 := by
  induction k generalizing last inode with
  | zero =>
    cases h
    exact hin j rfl
  | succ k ih =>
    rw [pick_succ] at h
    split at h
    · next hfree =>
      have hnext : ∀ i, some (ITable.nextInode last) = some i → i < nrInode ∧ s.slotCount i = 0 := by
        rintro i ⟨⟩
        exact ⟨ITable.nextInode_lt last, hfree⟩
      split at h
      · cases h
        exact hnext _ rfl
      · exact ih hnext h
    · exact ih hin h

theorem pick_none {k last l : Nat} {inode : Option Nat} (h : s.pick k last inode = (none, l)) :
    inode = none ∧ ∀ m < k, s.slotCount (ITable.nextInode^[m + 1] last) ≠ 0 := by
  induction k generalizing last inode with
  | zero =>
    cases h
    exact ⟨rfl, fun m hm => absurd hm (Nat.not_lt_zero m)⟩
  | succ k ih =>
    rw [pick_succ] at h
    split at h
    · split at h
      · cases h
      · cases (ih h).1
    · next hused =>
      obtain ⟨hnone, hrest⟩ := ih h
      refine ⟨hnone, fun m hm => ?_⟩
      cases m with
      | zero => exact hused
      | succ m => exact hrest m (by omega)

/-- A free slot is enough, where all the slots can be written back. -/
theorem vacant_of (hfree : ∃ j < nrInode, s.slotCount j = 0) (hsheds : ∀ j < nrInode, s.Sheds j) : s.Vacant := by
  obtain ⟨j, hj, hcount⟩ := hfree
  cases hpick : s.pick nrInode s.lastInode none with
  | mk o last =>
    cases o with
    | none =>
      obtain ⟨m, hm, hmj⟩ := ITable.nextInode_surj s.lastInode hj
      exact absurd (hmj ▸ hcount) ((pick_none hpick).2 m hm)
    | some i => exact ⟨i, last, hpick, hsheds i (pick_some (fun k hk => by cases hk) hpick).1⟩

/-- The slot was free, and it is empty now. -/
theorem getEmptyInode_spec (s : Core) :
    Post s.getEmptyInode
      (fun r => s.Vacant ∧ Dev.Still s.toDev r.2.toDev ∧ s.Calm r.2 ∧ r.2.slot r.1 = .empty 1 ∧
        ∀ n, 0 < (s.inode n).iCount → r.2.dirt n = s.dirt n)
      (fun _ => ¬ s.Vacant) := by
  unfold getEmptyInode
  split
  · next last hpick =>
    refine Post.stop ?_
    rintro ⟨j, last', hpick', -⟩
    rw [hpick] at hpick'
    cases hpick'
  · next j last hpick =>
    have hcount := (pick_some (fun k hk => by cases hk) hpick).2
    have hvacant : s.Vacant ↔ s.Sheds j := by
      refine ⟨?_, fun h => ⟨j, last, hpick, h⟩⟩
      rintro ⟨j', last', hpick', h⟩
      rw [hpick] at hpick'
      cases hpick'
      exact h
    rw [hvacant]
    refine Post.bind (writeSlot_spec j ({ s with lastInode := last } : Core)) ?_
    rintro s' ⟨hstill, hcalm, hclean, hdirt⟩
    split
    · next hstay => exact Post.stop fun h => by rw [hclean.mpr h] at hstay; cases hstay
    · next hgone =>
      -- who is in use is not in a free slot
      have hother : ∀ n, 0 < (s.inode n).iCount → ∀ dirt, s.slot j ≠ .own n dirt := by
        intro n hn dirt hslot
        unfold slotCount at hcount
        rw [hslot] at hcount
        exact absurd hcount (Nat.ne_of_gt hn)
      have hstays : ∀ n dirt, s'.slot j = .own n dirt → s.slot j = .own n dirt ∨ dirt = false := by
        intro n dirt h
        rcases hcalm.slot j with heq | hd
        · exact .inl (heq ▸ h)
        · rw [h] at hd
          exact .inr hd
      refine Post.ret ⟨hclean.mp (Bool.eq_false_iff.mpr hgone), hstill, ?_, Function.update_self .., fun n hn => ?_⟩
      · exact Calm.trans ⟨hcalm.slot, hcalm.dev⟩ (calm_setSlot rfl j s')
      · refine Eq.trans (dirt_congr fun k => ?_) (hdirt n (hother n hn))
        show Function.update s'.slot j _ k = _ ↔ _
        by_cases hk : k = j
        · rw [hk, Function.update_self]
          refine ⟨fun h => (by cases h), fun h => ?_⟩
          rcases hstays n true h with hold | hold
          · exact absurd hold (hother n hn true)
          · cases hold
        · rw [Function.update_of_ne hk]

/-! ## `iput` -/

/-- `iput` from `repeat` on is `Dev.iput`, once the inode is written back, or it panics since that fails. -/
theorem iputAgain_spec (hcount : (s.inode n).iCount ≠ 0) :
    Post (s.iputAgain n)
      (fun s' => s.Lets n ∧ s.Calm s' ∧ ∃ d, Dev.Still s.toDev d ∧ d.iput n = .ok s'.toDev)
      (fun text => ¬ s.Lets n ∨ ∃ d, Dev.Still s.toDev d ∧ d.iput n = .error text) := by
  have hput : s.toDev.iput n =
      if 1 < (s.inode n).iCount then .ok (s.toDev.setCount n ((s.inode n).iCount - 1))
      else if (s.inode n).iNlinks = 0 then do
        let d ← s.toDev.truncate n
        d.freeInode n
      else .ok (s.toDev.setCount n ((s.inode n).iCount - 1)) := if_neg hcount
  unfold iputAgain
  split
  · next hmany =>
    exact Post.ret ⟨.inl hmany, calm_withDev _ s, s.toDev, .refl _, by rw [hput, if_pos hmany]; rfl⟩
  · next hlast =>
    rw [if_neg hlast] at hput
    split
    · next hlinks =>
      rw [if_pos hlinks] at hput
      cases htruncate : s.toDev.truncate n with
      | error e =>
        rw [act_error htruncate]
        exact Post.stop (.inr ⟨s.toDev, .refl _, by rw [hput, htruncate]; rfl⟩)
      | ok d =>
        rw [htruncate] at hput
        rw [act_ok htruncate]
        show Post ((s.withDev d).act (Dev.freeInode n) >>= _) _ _
        cases hfree : d.freeInode n with
        | error e =>
          rw [act_error (s := s.withDev d) hfree]
          exact Post.stop (.inr ⟨s.toDev, .refl _, hput.trans hfree⟩)
        | ok d' =>
          rw [act_ok (s := s.withDev d) hfree]
          exact Post.ret ⟨.inr (.inl hlinks), ((calm_withDev d s).trans (calm_withDev d' _)).trans (calm_zeroSlot n _),
            s.toDev, .refl _, hput.trans hfree⟩
    · next hlinks =>
      rw [if_neg hlinks] at hput
      cases hdirt : s.dirt n with
      | false =>
        refine Post.ret ⟨.inr (.inr fun h => ?_), calm_withDev _ s, s.toDev, .refl _, hput⟩
        rw [hdirt] at h
        cases h
      | true =>
        refine Post.bind ((writeInode_spec n s).mono (fun _ h => h) fun text hb => .inl ?_) ?_
        · rintro (hmany | hzero | hread)
          · exact hlast hmany
          · exact hlinks hzero
          · exact hb (hread hdirt)
        · rintro _ ⟨hb, d, rfl, hstill⟩
          have hinode := hstill.same.inode
          refine Post.ret ⟨.inr (.inr fun _ => hb), ?_, d, hstill, ?_⟩
          · exact ((calm_withDev d s).trans (calm_setDirt n _)).trans (calm_withDev _ _)
          · unfold Dev.iput
            rw [hinode, if_neg hcount, if_neg hlast, if_neg hlinks]
            show _ = Except.ok (d.setCount n ((d.inode n).iCount - 1))
            rw [hinode]

/-- `sync_inodes` writes all the dirty inodes back. -/
theorem syncInodes_spec (hsheds : ∀ j < nrInode, s.Sheds j) :
    Post s.syncInodes (fun s' => Dev.Still s.toDev s'.toDev ∧ s.Calm s') (fun _ => False) := by
  refine Post.foldlM_range (I := fun _ s' => Dev.Still s.toDev s'.toDev ∧ s.Calm s') nrInode ?_ ⟨.refl _, .refl _⟩
  rintro j hj s' ⟨hstill, hcalm⟩
  split
  · exact Post.ret ⟨hstill, hcalm⟩
  · refine (writeSlot_spec j s').mono ?_ fun _ hnot => hnot ?_
    · rintro s'' ⟨hstill', hcalm', -⟩
      exact ⟨hstill.trans hstill', hcalm.trans hcalm'⟩
    · exact (hsheds j hj).keep (hcalm.slot j) hstill.same.super fun b hb => (hstill.readable b).mpr hb

theorem syncDev_spec {dev : Nat} (hsheds : ∀ j < nrInode, s.Sheds j) (hc : s.cache.Coherent)
    (hworks : dev = s.dev → ∀ b, s.cache.works b = true) :
    Post (s.syncDev dev) (fun s' => Dev.Still s.toDev s'.toDev ∧ s.Calm s') (fun _ => False) := by
  have hflush : ∀ s' : Core, s'.dev = s.dev → s'.cache.works = s.cache.works → s'.cache.Coherent →
      Dev.Still s'.toDev (s'.flushDev dev).toDev ∧ s'.Calm (s'.flushDev dev) := by
    intro s' hdev hsame hc'
    unfold flushDev
    split
    · next heq => exact ⟨.flush (by rw [hsame]; exact hworks (heq.trans hdev)) hc', calm_withDev _ s'⟩
    · exact ⟨.refl _, .refl _⟩
  obtain ⟨hstill, hcalm⟩ := hflush s rfl rfl hc
  have hsync := syncInodes_spec (s := s.flushDev dev) fun j hj =>
    (hsheds j hj).keep (hcalm.slot j) hstill.same.super fun b hb => (hstill.readable b).mpr hb
  refine Post.bind hsync fun s' hs' => ?_
  obtain ⟨hstill₁, hcalm₁⟩ := And.intro (hstill.trans hs'.1) (hcalm.trans hs'.2)
  obtain ⟨hstill₂, hcalm₂⟩ := hflush s' hcalm₁.dev hstill₁.same.cache.works (hstill₁.same.cache.coherent hc)
  exact Post.ret ⟨hstill₁.trans hstill₂, hcalm₁.trans hcalm₂⟩

theorem iput_eq (hcount : (s.inode n).iCount ≠ 0) (hblk : isBlk (s.inode n).iMode = false) :
    s.iput n = s.iputAgain n := by
  unfold iput
  rw [if_neg hcount, if_neg (by rw [hblk]; exact Bool.false_ne_true)]

/-- `iput` is `Dev.iput` up to the buffers of the inode blocks. A block device is written back first. -/
theorem iput_spec (hcount : (s.inode n).iCount ≠ 0) (hblk : isBlk (s.inode n).iMode = true →
      (∀ j < nrInode, s.Sheds j) ∧ s.cache.Coherent ∧ ((s.inode n).iZone 0 = s.dev → ∀ b, s.cache.works b = true)) :
    Post (s.iput n)
      (fun s' => s.Calm s' ∧ ∃ d, Dev.Still s.toDev d ∧ d.iput n = .ok s'.toDev)
      (fun text => ¬ s.Lets n ∨ ∃ d, Dev.Still s.toDev d ∧ d.iput n = .error text) := by
  cases hmode : isBlk (s.inode n).iMode with
  | false =>
    rw [iput_eq hcount hmode]
    refine (iputAgain_spec hcount).mono ?_ fun _ h => h
    rintro s' ⟨-, hcalm, hput⟩
    exact ⟨hcalm, hput⟩
  | true =>
    obtain ⟨hsheds, hc, hworks⟩ := hblk hmode
    unfold iput
    rw [if_neg hcount, if_pos hmode]
    refine Post.bind ((syncDev_spec hsheds hc hworks).mono (fun _ h => h) fun _ h => h.elim) ?_
    rintro s' ⟨hstill, hcalm⟩
    have hinode := hstill.same.inode
    refine (iputAgain_spec (by rw [hinode]; exact hcount)).mono ?_ ?_
    · rintro s'' ⟨-, hcalm', d, hstill', hput⟩
      exact ⟨hcalm.trans hcalm', d, hstill.trans hstill', hput⟩
    · rintro text (hlets | ⟨d, hstill', hput⟩)
      · refine .inl fun h => hlets ?_
        have hblock : s'.inodeBlock n = s.inodeBlock n := by
          unfold inodeBlock
          rw [hstill.same.super]
        unfold Lets at h ⊢
        rw [hinode, hblock]
        exact h.imp_right (Or.imp_right fun hread hdirt => (hstill.readable _).mpr (hread (hcalm.dirt hdirt)))
      · exact .inr ⟨d, hstill.trans hstill', hput⟩

end Core

end Linux011.Fs
