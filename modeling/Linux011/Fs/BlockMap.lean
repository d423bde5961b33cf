import Linux011.Fs.CreateBlocks
import Linux011.Fs.Entries
import Linux011.Fs.FileBytes
import Linux011.Fs.HeldZones

/-!
# `create_block` and `bmap`

The zones of one inode form a tree when no zone is referred to twice, the zone bitmap has all of them, and the index
blocks can be read. `create_block` gives a missing block a zone that was in no slot, on the way index blocks that
were missing, and nothing else moves (`Put`).

Whether other inodes and the bitmap fit each other plays no part, and a panic of `new_block` is no result.
-/

namespace Linux011.Fs

open Linux011.Lib

namespace Dev

/-- The bit of zone `z` is set. -/
def Marked (s : Dev) (z : Nat) : Prop :=
  s.super.sFirstdatazone ≤ z + 1 ∧ s.zmap (z + 1 - s.super.sFirstdatazone) = true

/-- The zones of inode `n` are in order. -/
structure BlockTree (n : Nat) (s : Dev) : Prop where
  marked : ∀ sl : Slot, sl.Valid → s.slotZone n sl ≠ 0 → s.Marked (s.slotZone n sl)
  inj : ∀ sl sl' : Slot, sl.Valid → sl'.Valid → s.slotZone n sl ≠ 0 → s.slotZone n sl = s.slotZone n sl' → sl = sl'
  readable : ∀ sl : Slot, sl.Valid → sl.Index → s.slotZone n sl ≠ 0 → s.Readable (s.slotZone n sl)

/-- The zones that slots hold are as they were, except that block 0 may have been cleared. -/
structure Keeps (s s' : Dev) : Prop where
  contents : ∀ b, b ≠ 0 → s'.contents b = s.contents b
  marked : ∀ z, s.Marked z → s'.Marked z
  readable : ∀ b, s.Readable b → s'.Readable b
  super : s'.super = s.super
  inode : s'.inode = s.inode

/-- Zone `z` was free, and has been taken and cleared. -/
structure Cleared (s : Dev) (z : Nat) (s' : Dev) : Prop where
  lt : z < s.super.sNzones
  free : ¬ s.Marked z
  contents : s'.contents = Function.update s.contents z fun _ => 0
  marked : ∀ y, s.Marked y ∨ y = z → s'.Marked y
  uptodate : ∀ b, (s.cache.head b).uptodate = true → (s'.cache.head b).uptodate = true
  readable : ∀ b, s.Readable b ∨ b = z → s'.Readable b
  super : s'.super = s.super
  inode : s'.inode = s.inode

/-- Slot `sl` has come to zone `z`, which is 0 if there was none to be had. A zone that comes to an empty slot was
free. -/
structure Put (n : Nat) (sl : Slot) (z : Nat) (s s' : Dev) : Prop where
  slot : ∀ sl' : Slot, sl'.Valid → s'.slotZone n sl' = if sl' = sl then z else s.slotZone n sl'
  old : s.slotZone n sl ≠ 0 → z = s.slotZone n sl
  fresh : s.slotZone n sl = 0 → z ≠ 0 → ¬ s.Marked z
  marked : ∀ y, s.Marked y → s'.Marked y
  super : s'.super = s.super
  tree : s'.BlockTree n

variable {s s' s'' : Dev} {n z b k : Nat} {p sl sl₀ : Slot}

theorem Same.keeps (h : Same s s') : s.Keeps s' where
  contents b _ := by rw [h.contents]
  marked z hz := by
    unfold Marked
    rw [h.super, h.zmap]
    exact hz
  readable b := h.readable
  super := h.super
  inode := h.inode

theorem Keeps.slotZone (h : s.Keeps s') (n : Nat) (sl : Slot) : s'.slotZone n sl = s.slotZone n sl :=
  slotZone_congr (by rw [h.inode]) fun p _ hz => h.contents _ hz

theorem Keeps.tree (h : s.Keeps s') (ht : s.BlockTree n) : s'.BlockTree n where
  marked sl hsl hz := by
    rw [h.slotZone] at hz ⊢
    exact h.marked _ (ht.marked sl hsl hz)
  inj sl sl' hsl hsl' := by
    rw [h.slotZone, h.slotZone]
    exact ht.inj sl sl' hsl hsl'
  readable sl hsl hp hz := by
    rw [h.slotZone] at hz ⊢
    exact h.readable _ (ht.readable sl hsl hp hz)

/-- Nothing was to be done, or nothing could be done. -/
theorem Keeps.put (h : s.Keeps s') (ht : s.BlockTree n) (hz : z = s.slotZone n sl) : Put n sl z s s' := by
  refine ⟨fun sl' _ => ?_, fun _ => hz, fun h0 hne => absurd (hz.trans h0) hne, h.marked, h.super, h.tree ht⟩
  rw [h.slotZone]
  split
  · next heq => rw [heq, hz]
  · rfl

/-! ## A free zone -/

theorem marked_bit {bit : Nat} (hpos : s.super.sFirstdatazone + bit ≠ 0) :
    s.Marked (bit + s.super.sFirstdatazone - 1) ↔ s.zmap bit = true := by
  have heq : bit + s.super.sFirstdatazone - 1 + 1 - s.super.sFirstdatazone = bit := by omega
  unfold Marked
  rw [heq]
  exact ⟨fun h => h.2, fun h => ⟨by omega, h⟩⟩

/-- Setting a bit unmarks no zone. -/
theorem marked_set {bit : Nat} (h : s.Marked z) : { s with zmap := Function.update s.zmap bit true }.Marked z := by
  refine ⟨h.1, ?_⟩
  change Function.update s.zmap bit true (z + 1 - s.super.sFirstdatazone) = true
  rw [Function.update_apply]
  split
  · rfl
  · exact h.2

/-- A zone whose buffer is in use is a panic. -/
theorem newZone_used {j : Nat} (hheld : s.held j ≠ 0) : Post (s.newZone j) (fun _ => False) (fun _ => True) := by
  have hcount : ((s.cache.getblk j).head j).count ≠ 1 := by
    change (s.cache.getblk j).held j ≠ 1
    rw [Cache.held_getblk, Function.update_self]
    exact fun heq => hheld (Nat.succ.inj heq)
  unfold newZone
  dsimp only
  rw [if_pos hcount]
  exact Post.stop trivial

/-- The bit has been set, and the buffer of the zone has been cleared. -/
theorem cleared_of_wrote {bit : Nat} (hz : z ≠ 0) (hzone : z = bit + s.super.sFirstdatazone - 1)
    (hlt : z < s.super.sNzones) (hbit : s.zmap bit = false) {cache : Cache}
    (hwrote : s.cache.Wrote z (fun _ => 0) cache) (hup : (cache.head z).uptodate = true) :
    s.Cleared z { s with zmap := Function.update s.zmap bit true, cache } := by
  have hpos : s.super.sFirstdatazone + bit ≠ 0 := by omega
  refine ⟨hlt, ?_, hwrote.contents, ?_, fun b hb => hwrote.uptodate b hb, ?_, rfl, rfl⟩
  · rw [hzone, marked_bit hpos, hbit]
    exact Bool.false_ne_true
  · rintro y (hy | rfl)
    · exact marked_set hy
    · rw [hzone]
      refine (marked_bit (s := { s with zmap := Function.update s.zmap bit true, cache }) hpos).mpr ?_
      exact Function.update_self ..
  · rintro b ((hb | hworks) | rfl)
    · exact .inl (hwrote.uptodate b hb)
    · exact .inr (hwrote.works ▸ hworks)
    · exact .inl hup

/-- `new_block` takes a zone whose bit was clear, or there is none. -/
theorem newBlock_cleared :
    Post s.newBlock (fun r => r.1 = 0 ∧ s.Keeps r.2 ∨ r.1 ≠ 0 ∧ s.Cleared r.1 r.2) (fun _ => True) := by
  unfold newBlock
  split
  · exact Post.ret (.inl ⟨rfl, (Same.refl s).keeps⟩)
  · next i j hscan =>
    obtain ⟨-, -, hbit⟩ := scanMap_some hscan
    rw [if_neg (by simp [hbit])]
    dsimp only
    split
    · exact Post.ret (.inl ⟨rfl, fun _ _ => rfl, fun _ => marked_set, fun _ => id, rfl, rfl⟩)
    · next hin =>
      by_cases hheld : s.held (j + i * 8192 + s.super.sFirstdatazone - 1) = 0
      · refine (newZone_spec (s := { s with zmap := Function.update s.zmap (8192 * i + j) true }) hheld).mono ?_
          fun _ h => h.elim
        rintro ⟨z, s'⟩ ⟨hz, cache, hwrote, hup, hs'⟩
        dsimp only at hz hs'
        subst hs' hz
        by_cases hzero : j + i * 8192 + s.super.sFirstdatazone - 1 = 0
        · -- the boot block, which no slot can hold
          refine .inl ⟨hzero, fun b hb => ?_, fun y => marked_set, fun b hb => ?_, rfl, rfl⟩
          · exact (congrFun hwrote.contents b).trans (Function.update_of_ne (hzero ▸ hb) ..)
          · exact hb.imp (hwrote.uptodate b) fun hworks => hwrote.works ▸ hworks
        · exact .inr ⟨hzero, cleared_of_wrote hzero (by omega) (by omega) hbit hwrote hup⟩
      · exact (newZone_used (s := { s with zmap := Function.update s.zmap (8192 * i + j) true }) hheld).mono
          (fun _ h => h.elim) fun _ h => h

/-! ## A slot gets a zone -/

/-- A free zone is in no slot. -/
theorem Cleared.apart (h : s.Cleared z s') (ht : s.BlockTree n) (hsl : sl.Valid) (hz : s.slotZone n sl ≠ 0) :
    s.slotZone n sl ≠ z := fun heq => h.free (heq ▸ ht.marked sl hsl hz)

/-- The new zone goes into an entry of the index block `b`. -/
theorem Cleared.written (h : s.Cleared z s') (hup : (s.cache.head b).uptodate = true) (hb : b ≠ 0) (hbz : b ≠ z)
    (hsmall : z < 2 ^ 16) (k : Nat) :
    (∀ y, y ≠ b → y ≠ z → (s'.modify b (setWord k z)).contents y = s.contents y) ∧
    (∀ k', (s'.modify b (setWord k z)).entryOf b k' = if k' = k then z else s.entryOf b k') ∧
    (∀ k', (s'.modify b (setWord k z)).entryOf z k' = 0) ∧
    ∀ y, s'.Readable y → (s'.modify b (setWord k z)).Readable y := by
  have hwrote := Cache.modify_spec (setWord k z) (h.uptodate b hup)
  have hothers : ∀ y, y ≠ b → (s'.modify b (setWord k z)).contents y = s'.contents y := by
    intro y hy
    change (s'.cache.modify _ _).contents y = _
    rw [hwrote.contents, Function.update_of_ne hy]
    rfl
  refine ⟨fun y hy hyz => ?_, fun k' => ?_, fun k' => ?_, fun y hy => hy.imp_left (hwrote.uptodate y)⟩
  · rw [hothers y hy, h.contents, Function.update_of_ne hyz]
  · have hold : s'.cache.contents b = s.contents b := by
      change s'.contents b = _
      rw [h.contents, Function.update_of_ne hbz]
    unfold entryOf
    rw [if_neg hb, if_neg hb]
    change word ((s'.cache.modify _ _).contents b) k' = _
    rw [hwrote.contents, Function.update_self, hold, word_setWord _ hsmall]
  · refine entryOf_fresh ?_ k'
    rw [hothers z hbz.symm, h.contents, Function.update_self]

/-- The tree is in order with a free zone in an empty slot. -/
theorem put_of_slot (ht : s.BlockTree n) (hempty : s.slotZone n sl₀ = 0) (hcleared : s.Cleared z s'') (hsuper : s'.super = s.super)
    (hmarked : ∀ y, s''.Marked y → s'.Marked y) (hreadable : ∀ b, s''.Readable b → s'.Readable b)
    (hslot : ∀ sl : Slot, sl.Valid → s'.slotZone n sl = if sl = sl₀ then z else s.slotZone n sl) : Put n sl₀ z s s' := by
  refine ⟨hslot, fun hne => absurd hempty hne, fun _ _ => hcleared.free, fun y hy => hmarked y (hcleared.marked y (.inl hy)),
    hsuper, fun sl hsl hz => ?_, fun sl sl' hsl hsl' hz heq => ?_, fun sl hsl hp hz => ?_⟩
  · rw [hslot sl hsl] at hz ⊢
    split
    · exact hmarked z (hcleared.marked z (.inr rfl))
    · next hne =>
      rw [if_neg hne] at hz
      exact hmarked _ (hcleared.marked _ (.inl (ht.marked sl hsl hz)))
  · rw [hslot sl hsl] at hz
    rw [hslot sl hsl, hslot sl' hsl'] at heq
    by_cases h : sl = sl₀
    · by_cases h' : sl' = sl₀
      · exact h.trans h'.symm
      · rw [if_pos h] at hz
        rw [if_pos h, if_neg h'] at heq
        exact absurd heq.symm (hcleared.apart ht hsl' (heq ▸ hz))
    · rw [if_neg h] at hz
      by_cases h' : sl' = sl₀
      · rw [if_neg h, if_pos h'] at heq
        exact absurd heq (hcleared.apart ht hsl hz)
      · rw [if_neg h, if_neg h'] at heq
        exact ht.inj sl sl' hsl hsl' hz heq
  · rw [hslot sl hsl] at hz ⊢
    split
    · exact hreadable z (hcleared.readable z (.inr rfl))
    · next hne =>
      rw [if_neg hne] at hz
      exact hreadable _ (hcleared.readable _ (.inl (ht.readable sl hsl hp hz)))

/-- A zone of the inode itself. -/
theorem inodeZone_put (ht : s.BlockTree n) (i : Nat) :
    Post (s.inodeZone true n i) (fun r => Put n (.zone i) r.1 s r.2) (fun _ => True) := by
  unfold Dev.inodeZone
  split
  · next hempty =>
    refine Post.bind newBlock_cleared ?_
    rintro ⟨z, s₁⟩ (⟨hz, hkeeps⟩ | ⟨hz, hcleared⟩)
    · dsimp only at hz hkeeps ⊢
      rw [if_pos hz]
      exact Post.ret (hkeeps.put ht hempty.2.symm)
    · dsimp only at hz hcleared ⊢
      rw [if_neg hz]
      have hself : ((s₁.setZone n i z).inode n).iZone = Function.update (s.inode n).iZone i z := by
        rw [← hcleared.inode]
        unfold setZone setInode
        dsimp only
        rw [Function.update_self]
      refine Post.ret (put_of_slot ht hempty.2 hcleared hcleared.super (fun _ => id) (fun _ => id) fun sl hsl => ?_)
      refine slotZone_put hempty.2 (fun j => ?_) (fun p hvalid hp hz k => ?_)
        (fun p _ hp _ k => Slot.child_ne_zone hp) (fun k => ?_) hsl
      · rw [hself, Function.update_apply]
        simp [Slot.zone.injEq]
      · rw [if_neg (Slot.child_ne_zone hp)]
        refine entryOf_congr (fun hz => ?_) k
        change s₁.contents _ = _
        rw [hcleared.contents, Function.update_of_ne (hcleared.apart ht hvalid hz)]
      · refine entryOf_fresh ?_ k
        change s₁.contents z = _
        rw [hcleared.contents, Function.update_self]
  · next hkept =>
    exact Post.ret ((Same.refl s).keeps.put ht rfl)

theorem brelse_same (b : Nat) : Post (s.brelse b) (fun s' => Same s s') (fun _ => True) := by
  cases hheld : s.held b with
  | zero =>
    unfold Dev.brelse Cache.brelse
    have hcount : (s.cache.head b).count = 0 := hheld
    rw [if_pos hcount]
    exact Post.stop trivial
  | succ m => exact (brelse_spec hheld).mono (fun _ h => h.1) fun _ h => h.elim

/-- What happens to buffers before and after does not matter. -/
theorem Put.same {s₁ s₂ : Dev} (hbefore : Same s s₁) (h : Put n sl z s₁ s₂) (hafter : Same s₂ s') : Put n sl z s s' where
  slot sl' hsl' := by
    rw [hafter.slotZone, h.slot sl' hsl', hbefore.slotZone]
  old := by
    rw [← hbefore.slotZone]
    exact h.old
  fresh := by
    rw [← hbefore.slotZone]
    exact fun h0 hz hmarked => h.fresh h0 hz (hbefore.keeps.marked z hmarked)
  marked y hy := hafter.keeps.marked y (h.marked y (hbefore.keeps.marked y hy))
  super := hafter.super.trans (h.super.trans hbefore.super)
  tree := hafter.keeps.tree h.tree

/-- An entry of an index block. -/
theorem entryZone_put (ht : s.BlockTree n) (hnzones : s.super.sNzones < 2 ^ 16) (hvalid : p.Valid) (hp : p.Index)
    (hb : s.slotZone n p ≠ 0) (k : Nat) :
    Post (s.entryZone true (s.slotZone n p) k) (fun r => Put n (p.child k) r.1 s r.2) (fun _ => True) := by
  unfold Dev.entryZone
  refine Post.bind ((bread_got (ht.readable p hvalid hp hb)).mono (fun _ h => h) fun _ h => h.elim) ?_
  rintro ⟨got, s₁⟩ ⟨hsame, hgot, hup, -⟩
  cases hgot
  dsimp only at hsame hup ⊢
  rw [if_pos rfl]
  have ht₁ := hsame.keeps.tree ht
  rw [← hsame.slotZone] at hb hup ⊢
  have hentry : s₁.entry (s₁.slotZone n p) k = s₁.slotZone n (p.child k) := by
    rw [entry_eq k hup, slotZone_child hp hvalid, entryOf, if_neg hb]
  rw [hentry]
  split
  · next hempty =>
    refine Post.bind newBlock_cleared ?_
    rintro ⟨z, s₂⟩ (⟨hz, hkeeps⟩ | ⟨hz, hcleared⟩)
    · dsimp only at hz hkeeps ⊢
      rw [if_pos hz]
      refine Post.bind (brelse_same _) fun s₃ hsame₃ => Post.ret ?_
      exact (hkeeps.put ht₁ (hz.trans hempty.2.symm)).same hsame hsame₃
    · dsimp only at hz hcleared ⊢
      rw [if_neg hz]
      refine Post.bind (brelse_same _) fun s₃ hsame₃ => Post.ret (Put.same hsame ?_ hsame₃)
      have hsmall : z < 2 ^ 16 := hcleared.lt.trans (hsame.super ▸ hnzones)
      -- the index block has one more entry, and the new zone is empty
      obtain ⟨hother, hindex, hzero, hreadable⟩ := hcleared.written hup hb (hcleared.apart ht₁ hvalid hb) hsmall k
      refine put_of_slot ht₁ hempty.2 hcleared hcleared.super (fun _ => id) hreadable fun sl hsl => ?_
      refine slotZone_put hempty.2 (fun i => ?_) (fun p' hvalid' hp' hz' k' => ?_) (fun p' hvalid' hp' hz' k' hchild => ?_)
        hzero hsl
      · rw [if_neg fun heq => Slot.child_ne_zone hp heq.symm]
        change (s₂.inode n).iZone i = _
        rw [hcleared.inode]
      · by_cases hpp : p' = p
        · subst hpp
          rw [hindex]
          refine if_congr ⟨fun heq => by rw [heq], fun heq => ?_⟩ rfl rfl
          exact (Slot.child_inj_parent hp' hvalid' hp hvalid heq).2
        · rw [if_neg fun heq => hpp (Slot.child_inj_parent hp' hvalid' hp hvalid heq).1]
          refine entryOf_congr (fun _ => hother _ (fun heq => hpp ?_) (hcleared.apart ht₁ hvalid' hz')) k'
          exact ht₁.inj p' p hvalid' hvalid hz' heq
      · obtain ⟨rfl, -⟩ := Slot.child_inj_parent hp' hvalid' hp hvalid hchild
        exact hb hz'
  · refine Post.bind (brelse_same _) fun s₃ hsame₃ => Post.ret ?_
    exact ((Same.refl s₁).keeps.put ht₁ rfl).same hsame hsame₃

/-! ## A block of the file -/

/-- `Put`, as far as the blocks of the file go: the index blocks on the way may be new. -/
structure Led (n : Nat) (sl : Slot) (z : Nat) (s s' : Dev) : Prop where
  slot : ∀ sl' : Slot, sl'.Valid → ¬ sl'.Index → s'.slotZone n sl' = if sl' = sl then z else s.slotZone n sl'
  old : s.slotZone n sl ≠ 0 → z = s.slotZone n sl
  fresh : s.slotZone n sl = 0 → z ≠ 0 → ¬ s.Marked z
  tree : s'.BlockTree n

/-- The index blocks above slot `sl` have got their zones, and the other slots are as they were. -/
structure Above (n : Nat) (sl : Slot) (s s' : Dev) : Prop where
  slot : ∀ sl' : Slot, sl'.Valid → sl' ∉ sl.above → s'.slotZone n sl' = s.slotZone n sl'
  marked : ∀ y, s.Marked y → s'.Marked y
  super : s'.super = s.super

theorem Above.refl (s : Dev) : Above n sl s s := ⟨fun _ _ _ => rfl, fun _ => id, rfl⟩

theorem Put.self (h : Put n p b s s') (hvalid : p.Valid) : s'.slotZone n p = b := by
  rw [h.slot p hvalid, if_pos rfl]

/-- The way goes on from an index block to one of its entries. -/
theorem Above.down (h : Above n p s s') (hp : p.Index) (hvalid : p.Valid) (hk : k < 512) (hput : Put n p b s' s'') :
    Above n (p.child k) s s'' where
  slot sl' hsl' hnot := by
    have hmem := (Slot.child_valid hp hvalid hk).2
    have hne : sl' ≠ p := fun heq => hnot (heq ▸ hmem)
    rw [hput.slot sl' hsl', if_neg hne]
    exact h.slot sl' hsl' fun habove => hnot (Slot.above_trans habove hmem)
  marked y hy := hput.marked y (h.marked y hy)
  super := hput.super.trans h.super

/-- The way ends at a block of the file. -/
theorem Above.led (h : Above n sl s s') (hput : Put n sl z s' s'') (hsl : sl.Valid ∧ ¬ sl.Index) : Led n sl z s s'' := by
  have hdata : ∀ sl' : Slot, sl'.Valid → ¬ sl'.Index → s'.slotZone n sl' = s.slotZone n sl' :=
    fun sl' hsl' hdata' => h.slot sl' hsl' fun hmem => hdata' (Slot.above_valid hsl.1 hmem).2
  refine ⟨fun sl' hsl' hdata' => ?_, ?_, ?_, hput.tree⟩
  · rw [hput.slot sl' hsl', hdata sl' hsl' hdata']
  · rw [← hdata sl hsl.1 hsl.2]
    exact hput.old
  · rw [← hdata sl hsl.1 hsl.2]
    exact fun h0 hz hmarked => hput.fresh h0 hz (h.marked z hmarked)

/-- `create_block` -/
theorem createBlock_led {block : Nat} (ht : s.BlockTree n) (hnzones : s.super.sNzones < 2 ^ 16)
    (hblock : block < maxBlocks) :
    Post (s.createBlock n block) (fun r => Led n (Slot.ofBlock block) r.1 s r.2) (fun _ => True) := by
  obtain ⟨hsl, -⟩ := Slot.ofBlock_valid hblock
  have hput : Post (s.createBlock n block) (fun r => ∃ s₁, Above n (Slot.ofBlock block) s s₁ ∧
      Put n (Slot.ofBlock block) r.1 s₁ r.2) (fun _ => True) := by
    refine bmapCreate_rule (P := fun sl r => ∃ s₁, Above n sl s s₁ ∧ Put n sl r.1 s₁ r.2)
      rfl hblock (fun i _ => ?_) (fun p hp k hk s' hr => ?_) fun p hp k hk _ b s' hb hr => ?_
    · exact (inodeZone_put ht i).imp fun r hr => ⟨s, .refl s, hr⟩
    · obtain ⟨hvalid, hindex⟩ := Slot.above_valid hsl hp
      obtain ⟨s₁, habove, hput⟩ := hr
      have hzero : s'.slotZone n (p.child k) = 0 :=
        slotZone_below (Slot.child_valid hindex hvalid hk).2 (hput.self hvalid)
      exact ⟨s', habove.down hindex hvalid hk hput, (Same.refl s').keeps.put hput.tree hzero.symm⟩
    · obtain ⟨hvalid, hindex⟩ := Slot.above_valid hsl hp
      obtain ⟨s₁, habove, hput⟩ := hr
      have hself : s'.slotZone n p = b := hput.self hvalid
      have hsuper : s'.super = s.super := hput.super.trans habove.super
      have hentry := entryZone_put hput.tree (hsuper ▸ hnzones) hvalid hindex (hself ▸ hb) k
      rw [hself] at hentry
      exact hentry.imp fun r hr => ⟨s', habove.down hindex hvalid hk hput, hr⟩
  refine hput.imp ?_
  rintro r ⟨s₁, habove, hput⟩
  exact habove.led hput (Slot.ofBlock_valid hblock)

/-- The zone that `bmap` finds. -/
def zoneOf (n block : Nat) (s : Dev) : Except Panic Nat := (s.bmap n block).map Prod.fst

/-- `bmap` reads the slot of the block, and changes nothing. -/
theorem BlockTree.bmap {block : Nat} (ht : s.BlockTree n) (hblock : block < maxBlocks) :
    ∃ s₁, s.bmap n block = .ok (s.slotZone n (Slot.ofBlock block), s₁) ∧ Same s s₁ := by
  obtain ⟨hvalid, -⟩ := Slot.ofBlock_valid hblock
  have hread : ∀ p ∈ (Slot.ofBlock block).above, s.slotZone n p ≠ 0 → s.Readable (s.slotZone n p) := by
    intro p hp hz
    obtain ⟨hp, hindex⟩ := Slot.above_valid hvalid hp
    exact ht.readable p hp hindex hz
  obtain ⟨⟨z, s₁⟩, hr, hsame, -, hz⟩ := (bmap_look hread hblock).returns
  exact ⟨s₁, hz ▸ hr, hsame⟩

theorem BlockTree.zoneOf {block : Nat} (ht : s.BlockTree n) (hblock : block < maxBlocks) :
    s.zoneOf n block = .ok (s.slotZone n (Slot.ofBlock block)) := by
  obtain ⟨s₁, hr, -⟩ := ht.bmap hblock
  unfold Dev.zoneOf
  rw [hr]
  rfl

/-- An inode whose zones are in order with those of the other inodes. -/
theorem BlockTree.of_tree (ht : s.Tree n) (hfirst : 0 < s.super.sFirstdatazone)
    (hread : ∀ sl : Slot, sl.Valid → sl.Index → s.slotZone n sl ≠ 0 → s.Readable (s.slotZone n sl)) : s.BlockTree n where
  marked sl hsl hz := by
    obtain ⟨hle, -, hbit⟩ := ht.used sl hsl hz
    have heq : s.slotZone n sl - (s.super.sFirstdatazone - 1) = s.slotZone n sl + 1 - s.super.sFirstdatazone := by omega
    exact ⟨Nat.le_succ_of_le hle, heq ▸ hbit⟩
  inj sl sl' hsl hsl' hz heq := (ht.inj sl sl' hsl hsl' hz heq.symm).symm
  readable := hread

/-- The blocks of a file: `bmap` changes nothing and gives two blocks different zones, and `create_block` maps its
block, to the zone that it had or to one that was in no slot, and leaves all other blocks alone. -/
theorem blockTree_map (ht : s.BlockTree n) (hnzones : s.super.sNzones < 2 ^ 16) :
    (∀ block < maxBlocks, ∃ z s₁, s.bmap n block = .ok (z, s₁) ∧ Same s s₁ ∧
      ∀ sl, s₁.slotZone n sl = s.slotZone n sl) ∧
    (∀ block block' z, block < maxBlocks → block' < maxBlocks → s.zoneOf n block = .ok z →
      s.zoneOf n block' = .ok z → z ≠ 0 → block = block') ∧
    ∀ block z s', block < maxBlocks → s.createBlock n block = .ok (z, s') → z ≠ 0 →
      s'.BlockTree n ∧ s'.zoneOf n block = .ok z ∧
      (∃ old, s.zoneOf n block = .ok old ∧ (old ≠ 0 → z = old) ∧
        (old = 0 → ∀ sl : Slot, sl.Valid → s.slotZone n sl ≠ z)) ∧
      ∀ block' < maxBlocks, block' ≠ block → s'.zoneOf n block' = s.zoneOf n block' := by
  refine ⟨fun block hblock => ?_, fun block block' z hblock hblock' hz hz' hne => ?_,
    fun block z s' hblock hcreate hne => ?_⟩
  · obtain ⟨s₁, hr, hsame⟩ := ht.bmap hblock
    exact ⟨_, s₁, hr, hsame, fun sl => hsame.slotZone n sl⟩
  · rw [ht.zoneOf hblock] at hz
    rw [ht.zoneOf hblock'] at hz'
    cases hz
    have heq : s.slotZone n (Slot.ofBlock block') = s.slotZone n (Slot.ofBlock block) := Except.ok.inj hz'
    exact ofBlock_inj (ht.inj _ _ (Slot.ofBlock_valid hblock).1 (Slot.ofBlock_valid hblock').1 hne heq.symm)
  · have hled : Led n (Slot.ofBlock block) z s s' := (createBlock_led ht hnzones hblock).of_ok _ hcreate
    obtain ⟨hvalid, hdata⟩ := Slot.ofBlock_valid hblock
    refine ⟨hled.tree, ?_, ⟨_, ht.zoneOf hblock, hled.old, fun h0 sl hsl heq => ?_⟩, fun block' hblock' hother => ?_⟩
    · rw [hled.tree.zoneOf hblock, hled.slot _ hvalid hdata, if_pos rfl]
    · have hz : s.slotZone n sl ≠ 0 := by
        rw [heq]
        exact hne
      exact hled.fresh h0 hne (heq ▸ ht.marked sl hsl hz)
    · obtain ⟨hvalid', hdata'⟩ := Slot.ofBlock_valid hblock'
      rw [hled.tree.zoneOf hblock', ht.zoneOf hblock', hled.slot _ hvalid' hdata',
        if_neg fun heq => hother (ofBlock_inj heq)]

/-- The first indirect block of an empty file. -/
theorem blockTree_map_empty : ∃ z s', z ≠ 0 ∧ Fs.emptyFile.createBlock 1 7 = .ok (z, s') ∧ s'.BlockTree 1 ∧
    s'.zoneOf 1 7 = .ok z ∧ s'.zoneOf 1 0 = Fs.emptyFile.zoneOf 1 0 := by
  have ht : Fs.emptyFile.BlockTree 1 := by
    refine ⟨fun sl _ hz => absurd (emptyFile_slotZone 1 sl) hz, fun sl _ _ _ hz => absurd (emptyFile_slotZone 1 sl) hz,
      fun sl _ _ hz => absurd (emptyFile_slotZone 1 sl) hz⟩
  have hmap := blockTree_map ht (by decide)
  cases hcreate : Fs.emptyFile.createBlock 1 7 with
  | error e =>
    have hok : (Fs.emptyFile.createBlock 1 7).toOption.isSome = true := by decide +kernel
    rw [hcreate] at hok
    cases hok
  | ok r =>
    obtain ⟨z, s'⟩ := r
    have hz : (Fs.emptyFile.createBlock 1 7).toOption.any (fun r => r.1 != 0) = true := by decide +kernel
    rw [hcreate] at hz
    have hne : z ≠ 0 := by simpa [Except.toOption] using hz
    obtain ⟨htree, hself, -, hother⟩ := hmap.2.2 7 z s' (by decide) hcreate hne
    exact ⟨z, s', hne, rfl, htree, hself, hother 0 (by decide) (by decide)⟩

end Dev

end Linux011.Fs
