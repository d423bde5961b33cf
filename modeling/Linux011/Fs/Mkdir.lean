import Linux011.Fs.Creation
import Linux011.Fs.FileTable

/-!
# Making directories

`sys_mkdir` of `fs/namei.c`, after the name was found absent. The new directory gets a block with `.` and `..`
before the parent gets its entry. Where the parent cannot be extended, `sys_mkdir` frees the block and `iput` of
the inode, which is a directory by then, frees it once more (`Housed.entry`).
-/

namespace Linux011.Fs

open Linux011.Lib

namespace Dev

/-- `strcpy`, with the zero at the end. -/
def strcpy (off : Nat) (text : List UInt8) (data : Nat → UInt8) (p : Nat) : UInt8 :=
  if off ≤ p ∧ p < off + text.length then text.getD (p - off) 0 else data p

/-- The entries `.` and `..` of a new directory. -/
def dots (n dir : Nat) (data : Nat → UInt8) : Nat → UInt8 :=
  strcpy 18 [46, 46, 0] (setWord 8 dir (strcpy 2 [46, 0] (setWord 0 n data)))

end Dev

/-- `sys_mkdir`, after the name was found absent. -/
def Core.sysMkdir (dir : Nat) (name : List UInt8) (mode umask euid egid : Nat) (s : Core) : Except Panic (Int × Core) := do
  let r ← s.newInode euid egid
  match r.1 with
  | none =>
    let s ← r.2.iput dir
    return (-eNospc, s)
  | some n =>
    let r ← (r.2.setInode n { r.2.inode n with iSize := 32 }).lift Dev.newBlock
    let s := r.2.setZone n 0 r.1
    if r.1 = 0 then
      let s ← s.iput dir
      let s ← (s.setInode n { s.inode n with iNlinks := (s.inode n).iNlinks - 1 }).iput n
      return (-eNospc, s)
    else
      let r ← s.lift (Dev.bread r.1)
      if r.1 then
        let s := r.2.setInode n { r.2.inode n with iNlinks := 2 }
        let s ← (s.modify ((s.inode n).iZone 0) (Dev.dots n dir)).act (Dev.brelse ((s.inode n).iZone 0))
        let mode := 0o040000 ||| (mode &&& 0o777).ldiff umask
        let r ← (s.setInode n { s.inode n with iMode := mode }).addEntry dir name
        match r.1 with
        | none =>
          let s ← r.2.iput dir
          let s ← s.act (Dev.freeBlock ((s.inode n).iZone 0))
          let s ← (s.setInode n { s.inode n with iNlinks := 0 }).iput n
          return (-eNospc, s)
        | some (b, k) =>
          let s := r.2.modify b (Dev.setWord (8 * k) n)
          let s := (s.setInode dir { s.inode dir with iNlinks := (s.inode dir).iNlinks + 1 }).setDirt dir true
          let s ← s.iput dir
          let s ← s.iput n
          let s ← s.act (Dev.brelse b)
          return (0, s)
      else
        let s ← r.2.iput dir
        let s ← s.act (Dev.freeBlock ((s.inode n).iZone 0))
        let s ← (s.setInode n { s.inode n with iNlinks := (s.inode n).iNlinks - 1 }).iput n
        return (-eError, s)

open Dev

variable {s s' s₁ s₂ : Dev} {t t' : Core} {n dir : Nat} {i : Inode}

/-- The points at which `sys_mkdir` can fail: the new directory takes a zone, and its entry may take more. -/
def Dev.MkdirFails (s : Dev) (dir : Nat) : Prop := s.NoInode ∨ s.spare = 0 ∨ ¬ s.Room dir (s.spare - 1)

/-- The new directory `n` has its first block, zone `z`. -/
structure Housed (dir n z : Nat) (s s' : Dev) : Prop where
  inv : ZoneInv True (fun m => s.zoned m ∨ m = n) noDead s'
  alike : Alike dir s s'
  held : s'.held = s.held
  super : s'.super = s.super
  spare : s'.spare + 1 = s.spare
  unused : ¬ s.Used z
  zone : (s'.inode n).iZone 0 = z ∧ z ≠ 0
  count : (s'.inode n).iCount = 1
  links : (s'.inode n).iNlinks = 2
  folder : isDir (s'.inode n).iMode = true
  parent : s'.inode dir = s.inode dir

/-- The type of a new directory. -/
theorem isDir_mkdir (mode umask : Nat) : isDir (0o040000 ||| (mode &&& 0o777).ldiff umask) = true := by
  unfold isDir
  rw [fmt_new]
  decide

/-- The first block of directory `n`, zone `z`, has been written, and the inode has become a directory. -/
structure Dotted (n z : Nat) (s s' : Dev) : Prop where
  contents : ∀ b ≠ z, s'.contents b = s.contents b
  held : s'.held = s.held
  readable : ∀ b, s.Readable b → s'.Readable b
  coherent : s.cache.Coherent → s'.cache.Coherent
  super : s'.super = s.super
  zmap : s'.zmap = s.zmap
  inode_ne : ∀ m ≠ n, s'.inode m = s.inode m
  inode_self : ∃ mode, isDir mode = true ∧ s'.inode n = { s.inode n with iNlinks := 2, iMode := mode }

theorem dotted {mode z : Nat} {s₃ : Dev} (hmode : isDir mode = true) (hread : Same s s₁)
    (hup : (s₁.cache.head z).uptodate = true) (hheld : s₁.held = Function.update s.held z (s.held z + 1))
    (hs₂ : s₂ = (s₁.setInode n { s₁.inode n with iNlinks := 2 }).modify z (dots n dir)) (hlet : Same s₂ s₃)
    (hback : s₃.held = Function.update s₂.held z (s.held z)) :
    Dotted n z s (s₃.setInode n { s₃.inode n with iMode := mode }) := by
  have hwrote : s₁.cache.Wrote z (dots n dir (s₁.contents z)) s₂.cache := by
    rw [hs₂]
    exact Cache.modify_spec (dots n dir) hup
  have hinode : s₃.inode = Function.update s.inode n { s.inode n with iNlinks := 2 } := by
    rw [hlet.inode, hs₂]
    show Function.update s₁.inode n _ = _
    rw [hread.inode]
  refine ⟨fun b hb => ?_, ?_, fun b hb => ?_, fun hc => ?_, ?_, ?_, fun m hm => ?_, mode, hmode, ?_⟩
  · show s₃.contents b = _
    rw [hlet.contents]
    show s₂.cache.contents b = _
    rw [hwrote.contents, Function.update_of_ne hb]
    exact congrFun hread.contents b
  · show s₃.held = _
    have hs₂held : s₂.held = s₁.held := hwrote.held
    rw [hback, hs₂held, hheld, Function.update_idem, Function.update_eq_self]
  · have hb₁ := hread.readable hb
    have hb₂ : s₂.Readable b := by
      unfold Dev.Readable
      rw [hwrote.works]
      exact hb₁.imp_left (hwrote.uptodate b)
    exact hlet.readable hb₂
  · exact hlet.cache.coherent (hwrote.coherent (hread.cache.coherent hc))
  · show s₃.super = _
    rw [hlet.super, hs₂]
    exact hread.super
  · show s₃.zmap = _
    rw [hlet.zmap, hs₂]
    exact hread.zmap
  · show Function.update s₃.inode n _ m = _
    rw [Function.update_of_ne hm, hinode, Function.update_of_ne hm]
  · show Function.update s₃.inode n _ n = _
    rw [Function.update_self, hinode, Function.update_self]

theorem dots_spec {z k : Nat} (hzone : (t.inode n).iZone 0 = z) (hheld : (t.toDev.modify z (dots n dir)).held z = k + 1) :
    Post ((t.modify ((t.inode n).iZone 0) (dots n dir)).act (Dev.brelse ((t.inode n).iZone 0)))
      (fun s => ∃ d, s = t.withDev d ∧ Same (t.toDev.modify z (dots n dir)) d ∧
        d.held = Function.update (t.toDev.modify z (dots n dir)).held z k)
      (fun _ => False) := by
  rw [hzone]
  exact Core.act_spec (s := t.modify z (dots n dir)) (brelse_spec hheld)

/-- A new directory with its block is in order, and nothing else is touched. -/
theorem housed {z : Nat} {s₃ : Dev} (hs : s.Consistent) (hdir : s.Parent dir) (hborn : Born s n i s₁)
    (hempty : i.iZone = fun _ => 0) (hcount : i.iCount = 1) (hfresh : Fresh s₁ z s₂)
    (hdots : Dotted n z (s₂.setZone n 0 z) s₃) : Housed dir n z s s₃ := by
  have hne := hborn.ne_used hdir.used
  have h₁ : ZoneInv True (fun m => s.zoned m ∨ m = n) noDead s₁ :=
    (hborn.zones hs.zones).join (by rw [hborn.inode_self]; exact hempty)
  have hn : s.zoned n ∨ n = n := Or.inr rfl
  have hd : s.zoned dir ∨ dir = n := Or.inl hdir.zoned
  have hz := hfresh.ne_zero h₁.sound
  have hslot : (s₁.inode n).iZone 0 = 0 := by rw [hborn.inode_self, hempty]
  have hvalid : Slot.Valid (.zone 0) := by
    show 0 < 9
    omega
  have hdata : ¬ Slot.Index (.zone 0) := by
    show ¬ 7 ≤ 0
    omega
  -- The zone comes to the new inode, and then `.` and `..` to the zone.
  have ha := attach_zone h₁ hn hslot hfresh
  have h₂ := ha.inv h₁ hn hvalid hz hfresh.not_used hslot
  have hgrown := ha.grown hn hslot
  have hself : (s₂.setZone n 0 z).slotZone n (.zone 0) = z := by
    rw [ha.slot n _ hn hvalid, if_pos ⟨rfl, rfl⟩]
  obtain ⟨mode, hmode, hinode⟩ := hdots.inode_self
  have hzone : ∀ m, (s₃.inode m).iZone = ((s₂.setZone n 0 z).inode m).iZone := by
    intro m
    by_cases hm : m = n
    · rw [hm, hinode]
    · rw [hdots.inode_ne m hm]
  have hcontents : ∀ b ≠ (s₂.setZone n 0 z).slotZone n (.zone 0), s₃.contents b = (s₂.setZone n 0 z).contents b := by
    rw [hself]
    exact hdots.contents
  have h₃ := h₂.wrote hn hvalid hdata hcontents (fun m _ => hzone m) hdots.super hdots.zmap hdots.held
    (hdots.coherent h₂.coherent)
  -- the parent has no part in the new block
  have hother : Alike dir (s₂.setZone n 0 z) s₃ := by
    have hslots : ∀ sl : Slot, sl.Valid → s₃.slotZone dir sl = (s₂.setZone n 0 z).slotZone dir sl :=
      fun sl hsl => h₂.slot_data hn hvalid hdata hcontents (fun m _ => hzone m) hd hsl
    refine ⟨hslots, fun p hp => ?_, by rw [hdots.inode_ne dir hne], hdots.readable⟩
    have hblock := (Slot.ofBlock_valid hp).1
    unfold Dev.fileByte
    rw [hslots _ hblock]
    by_cases hzero : (s₂.setZone n 0 z).slotZone dir (Slot.ofBlock (p / 1024)) = 0
    · rw [hzero]
      rfl
    · have hapart := fun heq => hne (h₂.inj hd hn hblock hvalid hzero heq).1
      simp only [if_neg hzero, hcontents _ hapart]
  have hspare : s₃.spare + 1 = s₁.spare := by
    rw [← hfresh.spare h₁.sound]
    refine congrArg (· + 1) (spare_congr (hdots.super.trans rfl) fun y => ?_)
    unfold Dev.Used
    rw [hdots.super, hdots.zmap]
    rfl
  have hinode₂ : (s₂.setZone n 0 z).inode n = { i with iZone := Function.update i.iZone 0 z } := by
    show Function.update s₂.inode n { s₂.inode n with iZone := Function.update (s₂.inode n).iZone 0 z } n = _
    rw [Function.update_self, hfresh.inode, hborn.inode_self]
  have hs₁ : s₁.spare = s.spare := by
    rw [hborn.eq]
    rfl
  refine ⟨h₃, ((hborn.alike hne).trans (hgrown.alike hd hne)).trans hother, ?_, ?_, by rw [hspare, hs₁], ?_, ⟨?_, hz⟩,
    ?_, ?_, ?_, ?_⟩
  · rw [hdots.held, ha.held, hborn.eq]
    rfl
  · rw [hdots.super, ha.super, hborn.eq]
  · have hunused := hfresh.not_used
    rw [hborn.eq] at hunused
    exact hunused
  · rw [hinode, hinode₂]
    show Function.update i.iZone 0 z 0 = z
    exact Function.update_self ..
  · rw [hinode, hinode₂]
    exact hcount
  · rw [hinode]
  · rw [hinode]
    exact hmode
  · rw [hdots.inode_ne dir hne, ha.inode_ne dir hne, hborn.inode_ne hne]

/-- A zone is not freed twice. -/
theorem freeBlock_twice {z : Nat} (hfirst : s.super.sFirstdatazone ≤ z) (hlast : z < s.super.sNzones)
    (hunused : ¬ s.Used z) (hheld : s.held z = 0) : s.freeBlock z = .error "free_block: bit already cleared" := by
  have hbit : s.zmap (z - (s.super.sFirstdatazone - 1)) = false :=
    Bool.eq_false_iff.mpr fun hset => hunused ⟨hfirst, hlast, hset⟩
  have hforget := forget_spec hheld
  unfold freeBlock
  rw [if_neg (by omega)]
  cases hx : s.forget z with
  | error e => exact (hforget.of_error e hx).elim
  | ok r =>
    obtain ⟨hdone, cache, hr, -⟩ := hforget.of_ok r hx
    show (if r.1 then r.2.clearBit z else _) = _
    rw [if_pos hdone, hr]
    unfold clearBit
    simp only
    rw [if_neg (by rw [hbit]; exact Bool.false_ne_true)]

/-- `iput` of the new directory frees its block once more. -/
theorem iput_twice {z : Nat} (hcount : (t.inode n).iCount = 1) (hlinks : (t.inode n).iNlinks = 0)
    (hfolder : isDir (t.inode n).iMode = true) (hzone : (t.inode n).iZone 0 = z) (hz : z ≠ 0)
    (hfree : t.toDev.freeBlock z = .error "free_block: bit already cleared") :
    t.iput n = .error "free_block: bit already cleared" := by
  have hdirect : t.toDev.freeDirect n 0 = .error "free_block: bit already cleared" := by
    unfold freeDirect
    rw [hzone, if_neg hz, hfree]
    rfl
  have htruncate : t.toDev.truncate n = .error "free_block: bit already cleared" := by
    unfold truncate
    rw [if_neg (by rw [hfolder, Bool.not_true, Bool.and_false]; exact Bool.false_ne_true),
      show List.range 7 = 0 :: [1, 2, 3, 4, 5, 6] from rfl, List.foldlM_cons, hdirect]
    rfl
  have hblk : isBlk (t.inode n).iMode = false := by
    unfold isDir at hfolder
    unfold isBlk
    rw [beq_iff_eq.mp hfolder]
    decide
  rw [Core.iput_eq (by rw [hcount]; exact Nat.one_ne_zero) hblk]
  unfold Core.iputAgain
  rw [if_neg (by rw [hcount]; exact Nat.lt_irrefl 1), if_pos hlinks, Core.act_error htruncate]
  rfl

/-- The directory is as dirty and as much in use as before, and its inode block can be read as before. -/
theorem lets_iff (hinode : t'.inode dir = t.inode dir) (hdirt : t'.dirt dir = t.dirt dir)
    (hsuper : t'.super = t.super) (hread : ∀ b, t'.Readable b ↔ t.Readable b) : t'.Lets dir ↔ t.Lets dir := by
  unfold Core.Lets
  rw [hinode, hdirt, inodeBlock_super hsuper, hread]

theorem Dev.Still.mkdirFails (h : Still s s') (hs : s.Consistent) (hdir : s.Parent dir) :
    s'.MkdirFails dir ↔ s.MkdirFails dir := by
  unfold Dev.MkdirFails
  rw [h.noInode, h.same.spare, (h.alike dir).room hs.zones hdir.zoned]

/-- The end of `sys_mkdir`: the directory gets its entry, or the block is freed twice. -/
theorem Housed.entry {z : Nat} (h : Housed dir n z s t.toDev) (hs : s.Consistent) (hdir : s.Parent dir) (hne : dir ≠ n)
    {name : List UInt8} (hname : name ≠ []) (hinodes : ¬ s.NoInode) :
    Post (do
        let r ← t.addEntry dir name
        match r.1 with
        | none =>
          let s ← r.2.iput dir
          let s ← s.act (Dev.freeBlock ((s.inode n).iZone 0))
          let s ← (s.setInode n { s.inode n with iNlinks := 0 }).iput n
          return (-eNospc, s)
        | some (b, k) =>
          let s := r.2.modify b (Dev.setWord (8 * k) n)
          let s := (s.setInode dir { s.inode dir with iNlinks := (s.inode dir).iNlinks + 1 }).setDirt dir true
          let s ← s.iput dir
          let s ← s.iput n
          let s ← s.act (Dev.brelse b)
          return (0, s))
      (fun r => r.1 = 0 ∧ ¬ s.MkdirFails dir) (fun _ => True) := by
  have hn : s.zoned n ∨ n = n := Or.inr rfl
  have hd : s.zoned dir ∨ dir = n := Or.inl hdir.zoned
  have hspare : s.spare ≠ 0 := by
    rw [← h.spare]
    exact Nat.succ_ne_zero _
  have hroom : t.toDev.Room dir t.toDev.spare ↔ s.Room dir (s.spare - 1) := by
    rw [← h.spare, Nat.add_sub_cancel]
    exact h.alike.room hs.zones hdir.zoned
  refine Post.bind ((addEntry_core (addEntry_spec (h.alike.legible hdir.legible) h.inv hd hname)).mono (fun _ h => h)
    fun _ h => h.elim) ?_
  rintro ⟨place, t₂⟩ ⟨-, -, ⟨hnone, -, hcrowded⟩ | ⟨b, k, hplace, hfree, -⟩⟩
  · cases hnone
    dsimp only at hcrowded ⊢
    obtain ⟨zone, hzone⟩ := hcrowded.grown.inode_self
    have hinode : t₂.inode n = t.inode n := hcrowded.grown.inode_ne n hne.symm
    have hsuper : t₂.super = s.super := hcrowded.grown.super.trans h.super
    have hused : t₂.Used z := by
      have hslot : t₂.slotZone n (.zone 0) = z := by
        show (t₂.inode n).iZone 0 = z
        rw [hinode, h.zone.1]
      rw [← hslot]
      exact hcrowded.inv.used hn (show 0 < 9 by omega) (by rw [hslot]; exact h.zone.2)
    have hheld : t₂.held z = 0 := by
      rw [hcrowded.held, h.held]
      exact hs.zones.unheld z (by rw [← hsuper]; exact hused.1) (by rw [← hsuper]; exact hused.2.1) h.unused
    refine Post.bind ((iput_dir (t := t₂) (by rw [hzone, h.parent]; exact hdir.held)
      (by rw [hzone, h.parent]; exact hdir.linked) (by rw [hzone, h.parent]; exact hdir.folder)).mono (fun _ h => h)
      fun _ _ => trivial) ?_
    rintro t₃ ⟨-, -, h₃⟩
    have hkept : t₃.inode n = t.inode n := by
      rw [h₃.same.inode, ← hinode]
      exact Function.update_of_ne hne.symm ..
    have hused₃ : t₃.Used z := (h₃.same.used z).mpr hused
    have hheld₃ : t₃.held z = 0 := (congrFun h₃.held z).trans hheld
    rw [hkept, h.zone.1]
    refine Post.bind ((Core.act_spec (freeBlock_spec hused₃ hheld₃)).mono (fun _ h => h) fun _ h => h.elim) ?_
    rintro _ ⟨d, rfl, hfreed⟩
    -- the inode still names the block, and has the type of a directory by now
    have hself : ((t₃.withDev d).setInode n { d.inode n with iNlinks := 0 }).inode n =
        { t.inode n with iNlinks := 0 } := by
      show Function.update d.inode n { d.inode n with iNlinks := 0 } n = _
      rw [Function.update_self, hfreed.inode, hkept]
    have hsound : t₃.super.Sound := by
      rw [h₃.same.super]
      exact hcrowded.inv.sound
    have hunused : ¬ (d.setInode n { d.inode n with iNlinks := 0 }).Used z :=
      fun hu => ((hfreed.used hsound hused₃ z).mp hu).2 rfl
    have htwice := freeBlock_twice (s := d.setInode n { d.inode n with iNlinks := 0 })
      (show d.super.sFirstdatazone ≤ z by rw [hfreed.super]; exact hused₃.1)
      (show z < d.super.sNzones by rw [hfreed.super]; exact hused₃.2.1) hunused
      (by show d.held z = 0; rw [hfreed.held]; exact hheld₃)
    have hput := iput_twice (t := (t₃.withDev d).setInode n { d.inode n with iNlinks := 0 })
      (by rw [hself]; exact h.count) (by rw [hself]) (by rw [hself]; exact h.folder) (by rw [hself]; exact h.zone.1)
      h.zone.2 htwice
    show Post (((t₃.withDev d).setInode n { d.inode n with iNlinks := 0 }).iput n >>= _) _ _
    rw [hput]
    exact Post.stop trivial
  · cases hplace
    have hfits : ¬ s.MkdirFails dir := by
      rintro (hno | hzero | hcrowded)
      · exact hinodes hno
      · exact hspare hzero
      · exact hcrowded (hroom.mp hfree)
    dsimp only
    refine Post.bind (Post.any _) fun t₃ _ => Post.bind (Post.any _) fun t₄ _ => Post.bind (Post.any _) fun t₅ _ => ?_
    exact Post.ret ⟨rfl, hfits⟩
/-- `iput(dir); iput(inode)`, for an inode that has no type yet. -/
theorem iput_typeless {d : Dev} (hne : dir ≠ n) (hone : (t.inode n).iCount = 1) (hlink : (t.inode n).iNlinks = 1)
    (hmode : (t.inode n).iMode = 0) (hrange : t.InRange n) (hcount : 0 < (t.inode dir).iCount)
    (hlinks : (t.inode dir).iNlinks ≠ 0) (hfolder : isDir (t.inode dir).iMode = true)
    (hsame : t.toDev.withdraw n dir = d) :
    Post (do
        let s ← t.iput dir
        let s ← (s.setInode n { s.inode n with iNlinks := (s.inode n).iNlinks - 1 }).iput n
        return (-eNospc, s))
      (fun r => r.1 = -eNospc ∧ t.Lets dir ∧ Still d r.2.toDev) (fun _ => ¬ t.Lets dir) := by
  refine Post.bind (iput_dir hcount hlinks hfolder) ?_
  rintro t₁ ⟨hlets, -, h₁⟩
  have hkept : t₁.inode n = t.inode n := by
    rw [h₁.same.inode]
    exact Function.update_of_ne hne.symm ..
  have hrange₁ : t₁.InRange n := by
    unfold Dev.InRange
    rw [h₁.same.super]
    exact hrange
  have htype : ∀ {p : Nat → Bool}, p 0 = false → p (t.inode n).iMode = true → False := by
    intro p h0 h
    rw [hmode, h0] at h
    cases h
  have hbare : Bare { t.inode n with iNlinks := (t.inode n).iNlinks - 1 } :=
    ⟨hone, by rw [hlink]; rfl, fun hfile => (hfile.elim (htype (p := isReg) rfl) (htype (p := isDir) rfl)).elim⟩
  rw [hkept]
  refine Post.bind ((iput_new (t := t₁.setInode n _) (Function.update_self ..) hbare hrange₁
    fun hblk => (htype (p := isBlk) rfl hblk).elim).mono (fun _ h => h) fun _ h => h.elim) ?_
  rintro t₂ ⟨-, h₂⟩
  exact Post.ret ⟨rfl, hlets, hsame ▸ still_dir_inode hne h₁ h₂⟩

/-- `sys_mkdir` makes the directory, or has not come as far as the entry and leaves the file system as it was.
It panics for want of a slot or of the directory's inode block, and may panic when it has come to the entry. -/
theorem sysMkdir_spec (hs : t.Consistent) (hdir : t.Parent dir) {name : List UInt8} (hname : name ≠ [])
    (mode umask euid egid : Nat) :
    Post (t.sysMkdir dir name mode umask euid egid)
      (fun r => r.1 = 0 ∧ ¬ t.MkdirFails dir ∨
        r.1 = -eNospc ∧ (t.NoInode ∨ t.spare = 0) ∧ t.Vacant ∧ t.Lets dir ∧ Undone t.toDev dir r.2.toDev)
      (fun _ => ¬ t.Vacant ∨ ¬ t.Lets dir ∨ ¬ t.NoInode ∧ t.spare ≠ 0) := by
  unfold Core.sysMkdir
  refine Post.bind ((newInode_spec hs.zones.sound hs.inode_zero euid egid).mono (fun _ h => h) fun _ h => .inl h) ?_
  rintro ⟨found, t₁⟩ ⟨hvacant, -, d, hstill, ⟨heq, hno, hd, hdirt, -⟩ | ⟨n, hsome, hinodes, hborn, hdirt, -⟩⟩
  · cases heq
    dsimp only at hd hdirt ⊢
    subst hd
    have hdir₁ := hdir.still hstill
    have hlets := lets_iff (t := t) (by rw [hstill.same.inode]) (hdirt dir hdir.held) hstill.same.super hstill.readable
    refine Post.bind ((iput_dir hdir₁.held hdir₁.linked hdir₁.folder).mono (fun _ h => h)
      fun _ hnot => .inr (.inl (mt hlets.mpr hnot))) ?_
    rintro t₂ ⟨hlets₁, -, hstill₂⟩
    exact Post.ret (.inr ⟨rfl, .inl hno, hvacant, hlets.mp hlets₁,
      ((undone_release (hs.still hstill) hdir₁).still hstill₂).of_still hstill⟩)
  · cases hsome
    have hs₁ := hs.still hstill
    have hdir₁ := hdir.still hstill
    have hne := hborn.ne_used hdir₁.used
    dsimp only at hborn hdirt ⊢
    rw [hborn.inode_self]
    have hdirt₂ : (t₁.setInode n { Inode.zero with
        iCount := 1, iNlinks := 1, iUid := euid, iGid := egid, iSize := 32 }).dirt dir = t.dirt dir :=
      hdirt dir hne hdir.held
    have hborn : Born d n _ (t₁.setInode n _).toDev :=
      hborn.setInode { Inode.zero with iCount := 1, iNlinks := 1, iUid := euid, iGid := egid, iSize := 32 }
    generalize t₁.setInode n _ = t₂ at hborn hdirt₂ ⊢
    have h₁ := hborn.zones hs₁.zones
    have hspare₁ : t₂.spare = t.spare := by
      rw [← hstill.same.spare, hborn.eq]
      rfl
    refine Post.bind ((Core.lift_spec (newBlock_zones h₁)).mono (fun _ h => h) fun _ h => h.elim) ?_
    rintro _ ⟨z, s₂, rfl, ⟨hz, hfull, hspare⟩ | hfresh⟩
    · -- no zone for the block of the new directory
      cases hz
      obtain ⟨h₂, hgrown, -⟩ := Dev.Full.zones (n := dir) h₁ hfull
      obtain ⟨hinode, hrange, hcount, hlinks⟩ := hgrown.settled hdir₁ hborn
      have hself : (s₂.setZone n 0 0).inode n = { s₂.inode n with iZone := Function.update (s₂.inode n).iZone 0 0 } :=
        Function.update_self ..
      have hparent : (s₂.setZone n 0 0).inode dir = s₂.inode dir := Function.update_of_ne hne ..
      have hsame : (s₂.setZone n 0 0).withdraw n dir = s₂.withdraw n dir := by
        unfold Dev.withdraw Dev.setZone Dev.setInode
        simp only [Function.update_idem, Function.update_of_ne hne]
      have hcache : s₂.cache = d.cache := by rw [hfull.cache, hborn.eq]
      have hlets : ((t₂.withDev s₂).setZone n 0 0).Lets dir ↔ t.Lets dir :=
        lets_iff (t := t) (by rw [← hstill.same.inode, ← hborn.inode_ne hne, ← hfull.inode]; exact hparent)
          hdirt₂ (by rw [← hstill.same.super]; exact hfull.super.trans (by rw [hborn.eq]))
          fun b => by
            rw [← hstill.readable]
            show (s₂.setZone n 0 0).Readable b ↔ _
            unfold Dev.Readable
            show (s₂.cache.head b).uptodate = true ∨ s₂.cache.works b = true ↔ _
            rw [hcache]
      simp only [if_pos]
      refine (iput_typeless (t := (t₂.withDev s₂).setZone n 0 0) hne ?_ ?_ ?_ hrange
        (hparent ▸ hcount) (hparent ▸ hlinks) (hparent ▸ hgrown.folder hdir₁ hborn) hsame).mono ?_ ?_
      · exact (congrArg Inode.iCount hself).trans (by rw [hinode])
      · exact (congrArg Inode.iNlinks hself).trans (by rw [hinode])
      · exact (congrArg Inode.iMode hself).trans (by rw [hinode]; rfl)
      · rintro r ⟨hcode, hlets₂, hstill₂⟩
        rw [hspare₁] at hspare
        exact .inr ⟨hcode, .inr hspare, hvacant, hlets.mp hlets₂,
          ((undone_withdraw hs₁ hdir₁ hborn h₂ hgrown).still hstill₂).of_still hstill⟩
      · exact fun _ hnot => .inr (.inl (mt hlets.mpr hnot))
    · have hz := hfresh.ne_zero h₁.sound
      dsimp only
      rw [if_neg hz]
      refine Post.bind ((Core.lift_spec (bread_spec z _)).mono (fun _ h => h) fun _ h => h.elim) ?_
      rintro ⟨got, u⟩ ⟨_, s₃, heq, hread, ⟨hgot, hup, hheld⟩ | ⟨-, hbad, -⟩⟩
      · -- the block gets `.` and `..`, and what is left is the entry in the parent
        cases hgot
        obtain ⟨rfl, hu⟩ := Prod.mk.inj heq
        obtain ⟨rfl, hslot⟩ : s₃ = u.toDev ∧ u.slot = t₂.slot := by
          rw [hu]
          exact ⟨rfl, rfl⟩
        clear hu heq
        have hblock : ((u.setInode n { u.inode n with iNlinks := 2 }).inode n).iZone 0 = z := by
          show (Function.update u.inode n { u.inode n with iNlinks := 2 } n).iZone 0 = z
          rw [Function.update_self, hread.inode]
          show (Function.update s₂.inode n { s₂.inode n with iZone := Function.update (s₂.inode n).iZone 0 z } n).iZone 0 = z
          rw [Function.update_self]
          show Function.update (s₂.inode n).iZone 0 z 0 = z
          rw [Function.update_self]
        have hone : ((u.setInode n { u.inode n with iNlinks := 2 }).toDev.modify z (dots n dir)).held z
            = (s₂.setZone n 0 z).held z + 1 := by
          rw [held_modify]
          show u.held z = _
          rw [hheld, Function.update_self]
          rfl
        dsimp only
        rw [if_pos rfl]
        refine Post.bind ((dots_spec (t := u.setInode n { u.inode n with iNlinks := 2 }) hblock hone).mono (fun _ h => h)
          fun _ h => h.elim) ?_
        rintro _ ⟨s₄, rfl, hlet, hback⟩
        have hhoused := housed hs₁ hdir₁ hborn rfl rfl hfresh
          (dotted (isDir_mkdir mode umask) hread hup hheld rfl hlet hback)
        generalize hv : Core.setInode n _ ((u.setInode n { u.inode n with iNlinks := 2 }).withDev s₄) = v
        have hhoused : Housed dir n z d v.toDev := by
          rw [← hv]
          exact hhoused
        refine (hhoused.entry hs₁ hdir₁ hne hname (mt hstill.noInode.mp hinodes)).mono ?_ ?_
        · rintro r ⟨hcode, hfits⟩
          exact .inl ⟨hcode, mt (hstill.mkdirFails hs hdir).mpr hfits⟩
        · intro _ _
          refine .inr (.inr ⟨hinodes, ?_⟩)
          rw [← hstill.same.spare, ← hhoused.spare]
          exact Nat.succ_ne_zero _
      · -- the block is in the cache, since `new_block` has cleared it there
        exact absurd (hfresh.readable (Or.inr rfl)) hbad

/-- A failing `sys_mkdir` is undone if and only if it fails before it comes to the entry, and `get_empty_inode` and the
last `iput` of the directory do not panic. -/
theorem mkdir_undone_iff (hs : t.Consistent) (hdir : t.Parent dir) {name : List UInt8} (hname : name ≠ [])
    (mode umask euid egid : Nat) :
    (t.MkdirFails dir → Post (t.sysMkdir dir name mode umask euid egid)
      (fun r => r.1 ≠ 0 ∧ Undone t.toDev dir r.2.toDev) (fun _ => False)) ↔
    (t.MkdirFails dir → (t.NoInode ∨ t.spare = 0) ∧ t.Vacant ∧ t.Lets dir) := by
  have hspec := sysMkdir_spec hs hdir hname mode umask euid egid
  constructor
  · intro hundone hfails
    have hpost := hundone hfails
    cases hx : t.sysMkdir dir name mode umask euid egid with
    | error e => exact (hpost.of_error e hx).elim
    | ok r =>
      rcases hspec.of_ok r hx with ⟨-, hfits⟩ | ⟨-, hearly, hvacant, hlets, -⟩
      · exact absurd hfails hfits
      · exact ⟨hearly, hvacant, hlets⟩
  · intro hcond hfails
    obtain ⟨hearly, hvacant, hlets⟩ := hcond hfails
    refine hspec.mono (fun r hr => ?_) fun e he => ?_
    · rcases hr with ⟨-, hfits⟩ | ⟨hcode, -, -, -, hundone⟩
      · exact absurd hfails hfits
      · refine ⟨?_, hundone⟩
        rw [hcode]
        decide
    · rcases he with hnot | hnot | ⟨hinodes, hspare⟩
      · exact hnot hvacant
      · exact hnot hlets
      · exact hearly.elim hinodes hspare

/-- The parent is full, and the only free zone goes to the new directory. -/
theorem mkdir_panics :
    (fullDirectory 7 (fun _ => true) false).Consistent ∧ (fullDirectory 7 (fun _ => true) false).Parent 1 ∧
    (fullDirectory 7 (fun _ => true) false).MkdirFails 1 ∧
    reason ((inTable (fullDirectory 7 (fun _ => true) false) false (.empty 0)).sysMkdir 1 [97] 0o755 0 0 0) =
      some "free_block: bit already cleared" := by
  refine ⟨full_consistent (.inr rfl), full_parent (.inr rfl), .inr (.inr ?_), by decide +kernel⟩
  have hspare : (fullDirectory 7 (fun _ => true) false).spare = 1 := by decide
  rw [hspare]
  exact full_room

/-- Without a free zone `sys_mkdir` fails early. -/
theorem mkdir_undone_iff_full :
    ∃ t : Core, t.MkdirFails 1 ∧ Post (t.sysMkdir 1 [97] 0o755 0 0 0)
      (fun r => r.1 ≠ 0 ∧ Undone t.toDev 1 r.2.toDev) (fun _ => False) := by
  have hspare : (inTable (fullDirectory 6 (fun _ => true) false) false (.empty 0)).spare = 0 := by decide
  have hfails : (inTable (fullDirectory 6 (fun _ => true) false) false (.empty 0)).MkdirFails 1 := .inr (.inl hspare)
  have hvacant := Core.vacant_of (s := inTable (fullDirectory 6 (fun _ => true) false) false (.empty 0))
    ⟨1, by decide, rfl⟩ full_able.sheds
  exact ⟨_, hfails, (mkdir_undone_iff (full_consistent (.inl rfl)) (full_parent (.inr rfl)) (by decide) 0o755 0 0 0).mpr
    (fun _ => ⟨.inr hspare, hvacant, full_able.lets⟩) hfails⟩

end Linux011.Fs
