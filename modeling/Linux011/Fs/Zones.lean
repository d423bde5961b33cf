import Linux011.Fs.Inode
import Linux011.Lib.Ownership

/-!
# The zones of a file system

Each used zone has exactly one slot that refers to it (`ZoneInv`). While `truncate` is at work some
slots still hold the numbers of zones that it has freed; those are `dead`. `zoned` says of which inodes
the zone numbers are zone numbers at all: regular files and directories.

`createBlock` is a sequence of attachments of fresh zones to empty slots, and no attachment changes a
byte of a file (`Grown`).
-/

namespace Linux011.Fs

open Linux011.Lib

/-- Slot `r` refers to zone `z`. -/
def Refers (zoned : Nat → Prop) (dead : Nat × Slot → Prop) (s : Dev) (r : Nat × Slot) (z : Nat) : Prop :=
  zoned r.1 ∧ r.2.Valid ∧ ¬ dead r ∧ s.slotZone r.1 r.2 = z ∧ z ≠ 0

/-- The state of the zones. With `tight` every used zone has an owner. -/
structure ZoneInv (tight : Prop) (zoned : Nat → Prop) (dead : Nat × Slot → Prop) (s : Dev) : Prop where
  sound : s.super.Sound
  zero_bit : s.zmap 0 = true
  owns : Owns tight (Refers zoned dead s) s.Used
  closed : ∀ n sl p, sl.Valid → p ∈ sl.above → dead (n, p) → dead (n, sl)
  unheld : ∀ z, s.super.sFirstdatazone ≤ z → z < s.super.sNzones → ¬ s.Used z → s.held z = 0
  coherent : s.cache.Coherent

/-- No slot is dead. -/
def noDead (_ : Nat × Slot) : Prop := False

variable {tight : Prop} {zoned : Nat → Prop} {dead : Nat × Slot → Prop} {s s' s'' : Dev} {n : Nat}

namespace Dev

/-! ## Reading slots -/

theorem entryOf_congr {z : Nat} (h : z ≠ 0 → s'.contents z = s.contents z) (k : Nat) :
    s'.entryOf z k = s.entryOf z k := by
  unfold entryOf
  split
  · rfl
  · next hz => rw [h hz]

theorem entryOf_none (s : Dev) (k : Nat) : s.entryOf 0 k = 0 := if_pos rfl

/-- A slot is read from the inode and the index blocks above it. -/
theorem slotZone_congr {m : Nat} {sl : Slot} (hzone : (s'.inode m).iZone = (s.inode m).iZone)
    (habove : ∀ p ∈ sl.above, s.slotZone m p ≠ 0 →
      s'.contents (s.slotZone m p) = s.contents (s.slotZone m p)) :
    s'.slotZone m sl = s.slotZone m sl := by
  cases sl with
  | zone i =>
    show (s'.inode m).iZone i = _
    rw [hzone]
    rfl
  | ind k =>
    show s'.entryOf ((s'.inode m).iZone 7) k = _
    rw [hzone]
    exact entryOf_congr (habove (.zone 7) (List.mem_singleton.mpr rfl)) k
  | dind k =>
    show s'.entryOf ((s'.inode m).iZone 8) k = _
    rw [hzone]
    exact entryOf_congr (habove (.zone 8) (List.mem_singleton.mpr rfl)) k
  | leaf k l =>
    show s'.entryOf (s'.entryOf ((s'.inode m).iZone 8) k) l = _
    have hdind : s'.entryOf ((s.inode m).iZone 8) k = s.slotZone m (.dind k) :=
      entryOf_congr (habove (.zone 8) List.mem_cons_self) k
    rw [hzone, hdind]
    exact entryOf_congr (habove (.dind k) (List.mem_cons_of_mem _ (List.mem_singleton.mpr rfl))) l

theorem slotZone_child {p : Slot} (hp : p.Index) (hvalid : p.Valid) (k : Nat) :
    s.slotZone n (p.child k) = s.entryOf (s.slotZone n p) k := by
  cases p with
  | zone i =>
    change 7 ≤ i at hp
    change i < 9 at hvalid
    rcases (show i = 7 ∨ i = 8 by omega) with rfl | rfl
    · rfl
    · rfl
  | ind _ => exact hp.elim
  | dind j => rfl
  | leaf _ _ => exact hp.elim

theorem Same.slotZone (h : Same s s') (m : Nat) (sl : Slot) : s'.slotZone m sl = s.slotZone m sl :=
  slotZone_congr (by rw [h.inode]) fun _ _ _ => by rw [h.contents]

theorem Same.fileByte (h : Same s s') (m p : Nat) : s'.fileByte m p = s.fileByte m p := by
  unfold Dev.fileByte
  rw [h.slotZone, h.contents]

end Dev

open Dev

/-- All zones of inode `n` can be read. -/
def Dev.Legible (s : Dev) (n : Nat) : Prop :=
  ∀ sl : Slot, sl.Valid → s.slotZone n sl ≠ 0 → s.Readable (s.slotZone n sl)

theorem Dev.Same.legible (h : Same s s') (hn : s.Legible n) : s'.Legible n := by
  intro sl hsl hz
  rw [h.slotZone] at hz ⊢
  exact h.readable (hn sl hsl hz)

/-- The caching of blocks has nothing to do with the zones. -/
theorem ZoneInv.same (h : ZoneInv tight zoned dead s) (hsame : Same s s')
    (hheld : ∀ z, ¬ s.Used z → s.held z = 0 → s'.held z = 0) : ZoneInv tight zoned dead s' := by
  refine ⟨by rw [hsame.super]; exact h.sound, by rw [hsame.zmap]; exact h.zero_bit, ?_, h.closed, ?_,
    hsame.cache.coherent h.coherent⟩
  · refine h.owns.congr (fun r z => ?_) hsame.used
    unfold Refers
    rw [hsame.slotZone]
  · intro z h1 h2 h3
    rw [hsame.super] at h1 h2
    rw [hsame.used] at h3
    exact hheld z h3 (h.unheld z h1 h2 h3)

/-- Only the zone numbers of the zoned inodes matter. -/
theorem ZoneInv.apart (h : ZoneInv tight zoned dead s) (hcache : s'.cache = s.cache) (hsuper : s'.super = s.super)
    (hzmap : s'.zmap = s.zmap) (hzone : ∀ m, zoned m → (s'.inode m).iZone = (s.inode m).iZone) :
    ZoneInv tight zoned dead s' := by
  have hused : ∀ z, s'.Used z ↔ s.Used z := by
    intro z
    unfold Dev.Used
    rw [hsuper, hzmap]
  have hcontents : s'.contents = s.contents := congrArg Cache.contents hcache
  have hheld : s'.held = s.held := congrArg Cache.held hcache
  refine ⟨by rw [hsuper]; exact h.sound, by rw [hzmap]; exact h.zero_bit, ?_, h.closed, ?_,
    by rw [hcache]; exact h.coherent⟩
  · refine h.owns.congr (fun r z => and_congr_right fun hr => ?_) hused
    rw [slotZone_congr (hzone r.1 hr) fun _ _ _ => by rw [hcontents]]
  · intro z h1 h2 h3
    rw [hsuper] at h1 h2
    rw [hused] at h3
    rw [hheld]
    exact h.unheld z h1 h2 h3

theorem Dev.slotZone_quiet {c : Cache} (hc : Cache.Quiet s.cache c) (m : Nat) (sl : Slot) :
    Dev.slotZone { s with cache := c } m sl = s.slotZone m sl :=
  slotZone_congr rfl fun p _ _ => congrFun hc.contents (s.slotZone m p)

/-- Write-backs and evictions do not touch the zone trees, which are read off the contents. -/
theorem ZoneInv.quiet {c : Cache} (h : ZoneInv tight zoned dead s) (hc : Cache.Quiet s.cache c) :
    ZoneInv tight zoned dead { s with cache := c } := by
  refine ⟨h.sound, h.zero_bit, ?_, h.closed, fun z h1 h2 h3 => ?_, hc.coherent⟩
  · refine h.owns.congr (fun r z => and_congr_right fun _ => ?_) fun _ => Iff.rfl
    rw [slotZone_quiet hc]
  · exact (congrFun hc.held z).trans (h.unheld z h1 h2 h3)

/-- The slots of an inode that has no zones are empty. -/
theorem Dev.slotZone_none (hempty : (s.inode n).iZone = fun _ => 0) (sl : Slot) : s.slotZone n sl = 0 := by
  cases sl with
  | zone i => exact congrFun hempty i
  | ind k =>
    show s.entryOf ((s.inode n).iZone 7) k = 0
    rw [hempty]
    exact if_pos rfl
  | dind k =>
    show s.entryOf ((s.inode n).iZone 8) k = 0
    rw [hempty]
    exact if_pos rfl
  | leaf k l =>
    show s.entryOf (s.entryOf ((s.inode n).iZone 8) k) l = 0
    rw [hempty]
    exact if_pos (if_pos rfl)

/-- Nothing lies behind an empty slot. -/
theorem Dev.slotZone_below {sl p : Slot} (hp : p ∈ sl.above) (hz : s.slotZone n p = 0) :
    s.slotZone n sl = 0 := by
  cases sl with
  | zone i => cases hp
  | ind k =>
    cases List.mem_singleton.mp hp
    show s.entryOf (s.slotZone n (.zone 7)) k = 0
    rw [hz, entryOf_none]
  | dind k =>
    cases List.mem_singleton.mp hp
    show s.entryOf (s.slotZone n (.zone 8)) k = 0
    rw [hz, entryOf_none]
  | leaf k l =>
    have hleaf : s.slotZone n (.dind k) = 0 → s.slotZone n (.leaf k l) = 0 := by
      intro hdind
      show s.entryOf (s.slotZone n (.dind k)) l = 0
      rw [hdind, entryOf_none]
    rcases List.mem_cons.mp hp with rfl | hp
    · apply hleaf
      show s.entryOf (s.slotZone n (.zone 8)) k = 0
      rw [hz, entryOf_none]
    · cases List.mem_singleton.mp hp
      exact hleaf hz

/-- An inode that has no zones is as good as a zoned one. -/
theorem ZoneInv.join (h : ZoneInv tight zoned noDead s) (hempty : (s.inode n).iZone = fun _ => 0) :
    ZoneInv tight (fun m => zoned m ∨ m = n) noDead s := by
  refine ⟨h.sound, h.zero_bit, h.owns.congr (fun r z => ?_) fun _ => Iff.rfl, h.closed, h.unheld, h.coherent⟩
  unfold Refers
  constructor
  · rintro ⟨hm | hm, hrest⟩
    · exact ⟨hm, hrest⟩
    · have hslot := Dev.slotZone_none hempty r.2
      rw [← hm, hrest.2.2.1] at hslot
      exact absurd hslot hrest.2.2.2
  · rintro ⟨hm, hrest⟩
    exact ⟨Or.inl hm, hrest⟩

/-- The zone in a slot is used. -/
theorem ZoneInv.used (h : ZoneInv tight zoned noDead s) {m : Nat} {sl : Slot} (hm : zoned m)
    (hsl : sl.Valid) (hz : s.slotZone m sl ≠ 0) : s.Used (s.slotZone m sl) :=
  h.owns.used_of_ref (m, sl) _ ⟨hm, hsl, id, rfl, hz⟩

/-- Two slots that are not empty hold different zones. -/
theorem ZoneInv.inj (h : ZoneInv tight zoned noDead s) {m m' : Nat} {sl sl' : Slot} (hm : zoned m)
    (hm' : zoned m') (hsl : sl.Valid) (hsl' : sl'.Valid) (hz : s.slotZone m sl ≠ 0)
    (heq : s.slotZone m sl = s.slotZone m' sl') : m = m' ∧ sl = sl' := by
  have hr : Refers zoned noDead s (m, sl) (s.slotZone m sl) := ⟨hm, hsl, id, rfl, hz⟩
  have hr' : Refers zoned noDead s (m', sl') (s.slotZone m sl) := ⟨hm', hsl', id, heq.symm, hz⟩
  have hpair := h.owns.inj _ _ _ hr hr'
  exact ⟨congrArg Prod.fst hpair, congrArg Prod.snd hpair⟩

/-- The bytes of a block of a file are not what the slots are read from. -/
theorem ZoneInv.slot_data (h : ZoneInv tight zoned noDead s) {sl : Slot} (hn : zoned n) (hsl : sl.Valid)
    (hdata : ¬ sl.Index) (hcontents : ∀ b ≠ s.slotZone n sl, s'.contents b = s.contents b)
    (hzone : ∀ m, zoned m → (s'.inode m).iZone = (s.inode m).iZone) {m : Nat} {sl' : Slot} (hm : zoned m)
    (hsl' : sl'.Valid) : s'.slotZone m sl' = s.slotZone m sl' := by
  refine slotZone_congr (hzone m hm) fun p hp hz => hcontents _ fun heq => hdata ?_
  obtain ⟨hvalid, hindex⟩ := Slot.above_valid hsl' hp
  rw [← (h.inj hm hn hvalid hsl hz heq).2]
  exact hindex

/-- Writing a block of a file keeps the zones in order. -/
theorem ZoneInv.wrote (h : ZoneInv tight zoned noDead s) {sl : Slot} (hn : zoned n) (hsl : sl.Valid)
    (hdata : ¬ sl.Index) (hcontents : ∀ b ≠ s.slotZone n sl, s'.contents b = s.contents b)
    (hzone : ∀ m, zoned m → (s'.inode m).iZone = (s.inode m).iZone) (hsuper : s'.super = s.super)
    (hzmap : s'.zmap = s.zmap) (hheld : s'.held = s.held) (hcoherent : s'.cache.Coherent) :
    ZoneInv tight zoned noDead s' := by
  have hused : ∀ z, s'.Used z ↔ s.Used z := by
    intro z
    unfold Dev.Used
    rw [hsuper, hzmap]
  refine ⟨by rw [hsuper]; exact h.sound, by rw [hzmap]; exact h.zero_bit, ?_, h.closed, ?_, hcoherent⟩
  · refine h.owns.congr (fun r z => and_congr_right fun hr => and_congr_right fun hvalid => ?_) hused
    rw [h.slot_data hn hsl hdata hcontents hzone hr hvalid]
  · intro z h1 h2 h3
    rw [hsuper] at h1 h2
    rw [hused] at h3
    rw [hheld]
    exact h.unheld z h1 h2 h3

/-! ## Attaching a zone -/

/-- Zone `z`, fresh and empty, is put into an empty slot of inode `n`. The rest of the inode and the
other inodes stay; of the blocks only an index block changes. -/
structure Attach (zoned : Nat → Prop) (n : Nat) (sl₀ : Slot) (z : Nat) (s s' : Dev) : Prop where
  slot : ∀ m sl, zoned m → sl.Valid →
    s'.slotZone m sl = if m = n ∧ sl = sl₀ then z else s.slotZone m sl
  data : ∀ m sl, zoned m → sl.Valid → ¬ sl.Index → s.slotZone m sl ≠ 0 →
    s'.contents (s.slotZone m sl) = s.contents (s.slotZone m sl)
  zero : s'.contents z = fun _ => 0
  used : ∀ z', s'.Used z' ↔ s.Used z' ∨ z' = z
  zero_bit : s.zmap 0 = true → s'.zmap 0 = true
  held : s'.held = s.held
  works : s'.cache.works = s.cache.works
  readable : ∀ b, s.Readable b ∨ b = z → s'.Readable b
  coherent : s.cache.Coherent → s'.cache.Coherent
  super : s'.super = s.super
  imap : s'.imap = s.imap
  inode_ne : ∀ m ≠ n, s'.inode m = s.inode m
  inode_self : ∃ zone, s'.inode n = { s.inode n with iZone := zone }

theorem Attach.inv {sl₀ : Slot} {z : Nat} (h : ZoneInv tight zoned noDead s)
    (ha : Attach zoned n sl₀ z s s') (hn : zoned n) (hsl₀ : sl₀.Valid) (hz : z ≠ 0)
    (hunused : ¬ s.Used z) (hempty : s.slotZone n sl₀ = 0) : ZoneInv tight zoned noDead s' := by
  refine ⟨by rw [ha.super]; exact h.sound, ha.zero_bit h.zero_bit, ?_, h.closed, ?_,
    ha.coherent h.coherent⟩
  · have href : ∀ r z', Refers zoned noDead s' r z' ↔
        Refers zoned noDead s r z' ∨ r = (n, sl₀) ∧ z' = z := ?_
    · exact h.owns.give hunused href ha.used
    rintro ⟨m, sl⟩ z'
    constructor
    · rintro ⟨hm, hsl, hlive, heq, hne⟩
      rw [ha.slot m sl hm hsl] at heq
      split at heq
      · next hself => exact Or.inr ⟨by rw [hself.1, hself.2], heq.symm⟩
      · exact Or.inl ⟨hm, hsl, hlive, heq, hne⟩
    · rintro (⟨hm, hsl, hlive, heq, hne⟩ | ⟨hself, rfl⟩)
      · refine ⟨hm, hsl, hlive, ?_, hne⟩
        rw [ha.slot m sl hm hsl, if_neg, heq]
        rintro ⟨rfl, rfl⟩
        exact hne (heq.symm.trans hempty)
      · cases hself
        refine ⟨hn, hsl₀, id, ?_, hz⟩
        rw [ha.slot n sl₀ hn hsl₀, if_pos ⟨rfl, rfl⟩]
  · intro z' h1 h2 h3
    rw [ha.super] at h1 h2
    rw [ha.held]
    exact h.unheld z' h1 h2 fun hused => h3 ((ha.used z').mpr (Or.inl hused))

/-- What creating blocks of inode `n` leaves as it was: above all, every byte of every file. -/
structure Grown (zoned : Nat → Prop) (n : Nat) (s s' : Dev) : Prop where
  file : ∀ m p, zoned m → p / 1024 < maxBlocks → s'.fileByte m p = s.fileByte m p
  slot : ∀ m sl, zoned m → sl.Valid → s.slotZone m sl ≠ 0 → s'.slotZone m sl = s.slotZone m sl
  slot_ne : ∀ m ≠ n, ∀ sl, zoned m → sl.Valid → s'.slotZone m sl = s.slotZone m sl
  legible : s.Legible n → s'.Legible n
  readable : ∀ b, s.Readable b → s'.Readable b
  works : s'.cache.works = s.cache.works
  super : s'.super = s.super
  imap : s'.imap = s.imap
  inode_ne : ∀ m ≠ n, s'.inode m = s.inode m
  inode_self : ∃ zone, s'.inode n = { s.inode n with iZone := zone }

theorem Dev.Same.grown (h : Same s s') : Grown zoned n s s' :=
  ⟨fun m p _ _ => h.fileByte m p, fun m sl _ _ _ => h.slotZone m sl,
    fun m _ sl _ _ => h.slotZone m sl, h.legible, fun _ => h.readable, h.cache.works, h.super, h.imap, fun m _ => by rw [h.inode], ⟨(s.inode n).iZone, by rw [h.inode]⟩⟩

theorem Grown.trans (h : Grown zoned n s s') (h' : Grown zoned n s' s'') : Grown zoned n s s'' := by
  refine ⟨?_, ?_, ?_, h'.legible ∘ h.legible, fun b => h'.readable b ∘ h.readable b, h'.works.trans h.works, h'.super.trans h.super,
    h'.imap.trans h.imap, fun m hm => (h'.inode_ne m hm).trans (h.inode_ne m hm), ?_⟩
  · exact fun m p hm hp => (h'.file m p hm hp).trans (h.file m p hm hp)
  · intro m sl hm hsl hz
    have hfirst := h.slot m sl hm hsl hz
    rw [h'.slot m sl hm hsl (by rw [hfirst]; exact hz), hfirst]
  · exact fun m hne sl hm hsl => (h'.slot_ne m hne sl hm hsl).trans (h.slot_ne m hne sl hm hsl)
  · obtain ⟨zone, hzone⟩ := h.inode_self
    obtain ⟨zone', hzone'⟩ := h'.inode_self
    exact ⟨zone', by rw [hzone', hzone]⟩

theorem Grown.size (h : Grown zoned n s s') : (s'.inode n).iSize = (s.inode n).iSize := by
  obtain ⟨zone, hzone⟩ := h.inode_self
  rw [hzone]

theorem Attach.grown {sl₀ : Slot} {z : Nat} (ha : Attach zoned n sl₀ z s s') (hn : zoned n)
    (hempty : s.slotZone n sl₀ = 0) : Grown zoned n s s' := by
  refine ⟨?_, ?_, ?_, ?_, fun b hb => ha.readable b (Or.inl hb), ha.works, ha.super, ha.imap, ha.inode_ne, ha.inode_self⟩
  · intro m p hm hp
    obtain ⟨hvalid, hdata⟩ := Slot.ofBlock_valid hp
    unfold Dev.fileByte
    rw [ha.slot m _ hm hvalid]
    by_cases hself : m = n ∧ Slot.ofBlock (p / 1024) = sl₀
    · -- the missing block read as zeroes, and the fresh one is cleared
      rw [if_pos hself, hself.1, hself.2, hempty]
      simp [ha.zero]
    · rw [if_neg hself]
      by_cases hz : s.slotZone m (Slot.ofBlock (p / 1024)) = 0
      · simp [hz]
      · simp only [if_neg hz]
        rw [ha.data m _ hm hvalid hdata hz]
  · intro m sl hm hsl hz
    rw [ha.slot m sl hm hsl, if_neg]
    rintro ⟨rfl, rfl⟩
    exact hz hempty
  · intro m hne sl hm hsl
    rw [ha.slot m sl hm hsl, if_neg fun h => hne h.1]
  · intro hleg sl hsl hz
    rw [ha.slot n sl hn hsl] at hz ⊢
    split at hz
    · next hself =>
      rw [if_pos hself]
      exact ha.readable z (Or.inr rfl)
    · next hself =>
      rw [if_neg hself]
      exact ha.readable _ (Or.inl (hleg sl hsl hz))

/-- A fresh zone is none that a slot holds. -/
theorem Dev.Fresh.ne_slot {z : Nat} (h : ZoneInv tight zoned noDead s) (hfresh : Fresh s z s') {m : Nat}
    (sl : Slot) (hm : zoned m) (hsl : sl.Valid) (hz : s.slotZone m sl ≠ 0) : s.slotZone m sl ≠ z :=
  fun heq => hfresh.not_used (heq ▸ h.used hm hsl hz)

/-- The contents of all zones that slots hold are as before when a fresh zone is taken. -/
theorem Dev.Fresh.contents {z : Nat} (hfresh : Fresh s z s') {y : Nat} (hy : y ≠ z) :
    s'.contents y = s.contents y := by
  show s'.cache.contents y = _
  rw [hfresh.wrote.contents, Function.update_of_ne hy]
  rfl

theorem Dev.Fresh.contents_self {z : Nat} (hfresh : Fresh s z s') : s'.contents z = fun _ => 0 := by
  show s'.cache.contents z = _
  rw [hfresh.wrote.contents, Function.update_self]

theorem entryOf_fresh {z : Nat} (hzero : s.contents z = fun _ => 0) (k : Nat) : s.entryOf z k = 0 := by
  unfold entryOf
  split
  · rfl
  · rw [hzero, word_zero]

/-- The slots follow from the zones of the inode and from the entries of the index blocks that it has. -/
theorem Dev.slotZone_put {z : Nat} {sl sl₀ : Slot} (hempty : s.slotZone n sl₀ = 0)
    (htop : ∀ i, (s'.inode n).iZone i = if Slot.zone i = sl₀ then z else (s.inode n).iZone i)
    (hentry : ∀ p : Slot, p.Valid → p.Index → s.slotZone n p ≠ 0 → ∀ k,
      s'.entryOf (s.slotZone n p) k = if p.child k = sl₀ then z else s.entryOf (s.slotZone n p) k)
    (hnone : ∀ p : Slot, p.Valid → p.Index → s.slotZone n p = 0 → ∀ k, p.child k ≠ sl₀)
    (hzero : ∀ k, s'.entryOf z k = 0) (hsl : sl.Valid) :
    s'.slotZone n sl = if sl = sl₀ then z else s.slotZone n sl := by
  -- From an index block on to its entries.
  have hdown : ∀ p : Slot, p.Valid → p.Index →
      s'.slotZone n p = (if p = sl₀ then z else s.slotZone n p) → ∀ k < 512,
        s'.slotZone n (p.child k) = if p.child k = sl₀ then z else s.slotZone n (p.child k) := by
    intro p hvalid hp hread k hk
    rw [slotZone_child hp hvalid, slotZone_child hp hvalid, hread]
    split
    · next heq =>
      have hchild : p.child k ≠ sl₀ := by
        intro hchild
        have hmem := (Slot.child_valid hp hvalid hk).2
        rw [hchild, ← heq] at hmem
        exact Slot.not_above_self p hmem
      rw [if_neg hchild, hzero, heq, hempty, entryOf_none]
    · by_cases hz : s.slotZone n p = 0
      · rw [hz, entryOf_none, entryOf_none, if_neg (hnone p hvalid hp hz k)]
      · exact hentry p hvalid hp hz k
  have hseven : Slot.Valid (.zone 7) := Nat.lt_add_of_pos_right Nat.two_pos
  have height : Slot.Valid (.zone 8) := Nat.lt_succ_self 8
  cases sl with
  | zone i => exact htop i
  | ind k => exact hdown (.zone 7) hseven (Nat.le_refl 7) (htop 7) k hsl
  | dind k => exact hdown (.zone 8) height (Nat.le_succ 7) (htop 8) k hsl
  | leaf k l =>
    exact hdown (.dind k) hsl.1 trivial (hdown (.zone 8) height (Nat.le_succ 7) (htop 8) k hsl.1) l hsl.2

/-- A fresh zone goes into `i_zone[i]`. -/
theorem attach_zone {i z : Nat} (h : ZoneInv tight zoned noDead s) (hn : zoned n)
    (hempty : (s.inode n).iZone i = 0) (hfresh : Fresh s z s') :
    Attach zoned n (.zone i) z s (s'.setZone n i z) := by
  have hinode : ∀ m ≠ n, (s'.setZone n i z).inode m = s.inode m := by
    intro m hm
    rw [← hfresh.inode]
    exact Function.update_of_ne hm _ _
  have hself : (s'.setZone n i z).inode n
      = { s.inode n with iZone := Function.update (s.inode n).iZone i z } := by
    rw [← hfresh.inode]
    exact Function.update_self n _ _
  have hcontents : ∀ y, y ≠ z → (s'.setZone n i z).contents y = s.contents y :=
    fun y hy => hfresh.contents hy
  have hzero : (s'.setZone n i z).contents z = fun _ => 0 := hfresh.contents_self
  refine ⟨?_, ?_, hzero, ?_, ?_, ?_, ?_, fun _ hb => hfresh.readable hb, ?_, hfresh.super, hfresh.imap,
    hinode, ⟨_, hself⟩⟩
  · intro m sl hm hsl
    rcases eq_or_ne m n with rfl | hne
    · simp only [true_and]
      refine slotZone_put hempty (fun j => ?_) (fun p hvalid hp hz k => ?_) (fun p _ hp _ k => Slot.child_ne_zone hp)
        (entryOf_fresh hzero) hsl
      · rw [hself]
        refine (Function.update_apply ..).trans (if_congr ?_ rfl rfl)
        rw [Slot.zone.injEq]
      · rw [if_neg (Slot.child_ne_zone hp)]
        exact entryOf_congr (fun _ => hcontents _ (hfresh.ne_slot h p hn hvalid hz)) k
    · rw [if_neg (fun heq => hne heq.1)]
      refine slotZone_congr (by rw [hinode m hne]) fun p hp hz => ?_
      exact hcontents _ (hfresh.ne_slot h p hm (Slot.above_valid hsl hp).1 hz)
  · intro m sl hm hsl _ hz
    exact hcontents _ (hfresh.ne_slot h sl hm hsl hz)
  · exact hfresh.used h.sound
  · intro hbit
    show s'.zmap 0 = true
    have hpos := hfresh.range.1
    have hfirst := h.sound.first_pos
    rw [hfresh.zmap, Function.update_of_ne (by omega), hbit]
  · exact hfresh.wrote.held
  · exact hfresh.wrote.works
  · exact hfresh.wrote.coherent

/-- What `_bmap` does with a fresh zone `z` at an entry of an index block: the entry gets its number. -/
structure Entered (s₁ : Dev) (b k z : Nat) (s' : Dev) : Prop where
  contents : s'.contents = Function.update s₁.contents b (setWord k z (s₁.contents b))
  works : s'.cache.works = s₁.cache.works
  readable : ∀ b, s₁.Readable b → s'.Readable b
  coherent : s₁.cache.Coherent → s'.cache.Coherent
  zmap : s'.zmap = s₁.zmap
  super : s'.super = s₁.super
  imap : s'.imap = s₁.imap
  inode : s'.inode = s₁.inode

/-- A fresh zone goes into an entry of an index block. -/
theorem attach_entry {p : Slot} {k z : Nat} {s₁ : Dev} (h : ZoneInv tight zoned noDead s)
    (hn : zoned n) (hp : p.Index) (hvalid : p.Valid) (hb : s.slotZone n p ≠ 0)
    (hempty : s.entryOf (s.slotZone n p) k = 0) (hfresh : Fresh s z s₁)
    (he : Entered s₁ (s.slotZone n p) k z s') (hheld : s'.held = s.held) :
    Attach zoned n (p.child k) z s s' := by
  have hbz : s.slotZone n p ≠ z := hfresh.ne_slot h p hn hvalid hb
  have hzsmall : z < 2 ^ 16 := Nat.lt_trans hfresh.range.2 h.sound.nzones_lt
  have hother : ∀ y, y ≠ z → y ≠ s.slotZone n p → s'.contents y = s.contents y := by
    intro y hyz hyb
    rw [he.contents, Function.update_of_ne hyb, hfresh.contents hyz]
  have hzero : s'.contents z = fun _ => 0 := by
    rw [he.contents, Function.update_of_ne hbz.symm, hfresh.contents_self]
  have hblock : ∀ k', s'.entryOf (s.slotZone n p) k'
      = if k' = k then z else s.entryOf (s.slotZone n p) k' := by
    intro k'
    unfold entryOf
    rw [if_neg hb, if_neg hb, he.contents, Function.update_self, word_setWord _ hzsmall,
      hfresh.contents hbz]
  have hinode : ∀ m, s'.inode m = s.inode m := fun m => by rw [he.inode, hfresh.inode]
  refine ⟨?_, ?_, hzero, ?_, ?_, hheld, ?_, fun b hb => he.readable b (hfresh.readable hb), ?_, ?_, ?_,
    fun m _ => hinode m, ⟨(s.inode n).iZone, hinode n⟩⟩
  · intro m sl hm hsl
    rcases eq_or_ne m n with rfl | hne
    · simp only [true_and]
      -- only in the index block of `p` there is another entry
      refine slotZone_put (by rw [slotZone_child hp hvalid, hempty]) (fun i => ?_) (fun p' hvalid' hp' hz k' => ?_)
        (fun p' hvalid' hp' hz k' heq => ?_) (entryOf_fresh hzero) hsl
      · rw [if_neg fun heq => Slot.child_ne_zone hp heq.symm, hinode]
      · by_cases hpp : p' = p
        · subst hpp
          rw [hblock]
          exact if_congr ⟨fun heq => heq ▸ rfl, fun heq => (Slot.child_inj_parent hp' hvalid' hp hvalid heq).2⟩ rfl rfl
        · rw [if_neg fun heq => hpp (Slot.child_inj_parent hp' hvalid' hp hvalid heq).1]
          refine entryOf_congr (fun _ => hother _ (hfresh.ne_slot h p' hm hvalid' hz) fun heq => hpp ?_) k'
          exact (h.inj hm hm hvalid' hvalid hz heq).2
      · obtain ⟨rfl, -⟩ := Slot.child_inj_parent hp' hvalid' hp hvalid heq
        exact hb hz
    · rw [if_neg fun heq => hne heq.1]
      refine slotZone_congr (by rw [hinode]) fun q hq hz => ?_
      refine hother _ (hfresh.ne_slot h q hm (Slot.above_valid hsl hq).1 hz) fun heq => ?_
      exact hne (h.inj hm hn (Slot.above_valid hsl hq).1 hvalid hz heq).1
  · intro m sl hm hsl hdata hz
    refine hother _ (hfresh.ne_slot h sl hm hsl hz) fun heq => ?_
    obtain ⟨-, rfl⟩ := h.inj hm hn hsl hvalid hz heq
    exact hdata hp
  · intro z'
    rw [← hfresh.used h.sound z']
    unfold Dev.Used
    rw [he.super, he.zmap]
  · intro hbit
    have hpos := hfresh.range.1
    have hfirst := h.sound.first_pos
    rw [he.zmap, hfresh.zmap, Function.update_of_ne (by omega), hbit]
  · rw [he.works, hfresh.wrote.works]
  · exact fun hc => he.coherent (hfresh.wrote.coherent hc)
  · rw [he.super, hfresh.super]
  · rw [he.imap, hfresh.imap]

/-! ## create_block -/

/-- `newBlock` where the zones are in order. -/
theorem newBlock_zones (h : ZoneInv tight zoned dead s) :
    Post s.newBlock (fun r => (r.1 = 0 ∧ Full s r.2 ∧ s.spare = 0) ∨ Fresh s r.1 r.2) (fun _ => False) := by
  refine ((newBlock_spec h.sound h.zero_bit h.unheld).and (newBlock_full h.sound h.zero_bit)).mono ?_
    fun _ he => he.1
  rintro r ⟨⟨hz, hfull⟩ | hfresh, hspare⟩
  · exact Or.inl ⟨hz, hfull, hspare hz⟩
  · exact Or.inr hfresh

/-- A step of `create_block` has come to slot `sl`, with result `r`: an empty slot has got a zone if there
was one. -/
structure Made (zoned : Nat → Prop) (n : Nat) (sl : Slot) (s : Dev) (r : Nat × Dev) : Prop where
  slot : ∀ m sl', zoned m → sl'.Valid →
    r.2.slotZone m sl' = if m = n ∧ sl' = sl then r.1 else s.slotZone m sl'
  full : r.1 = 0 ↔ s.slotZone n sl = 0 ∧ s.spare = 0
  spare : r.2.spare = s.spare - if s.slotZone n sl = 0 then 1 else 0

namespace Made

variable {sl : Slot} {z : Nat}

theorem self {r : Nat × Dev} (h : Made zoned n sl s r) (hn : zoned n) (hsl : sl.Valid) :
    r.1 = r.2.slotZone n sl := by
  rw [h.slot n sl hn hsl, if_pos ⟨rfl, rfl⟩]

theorem kept (hz : s.slotZone n sl ≠ 0) : Made zoned n sl s (s.slotZone n sl, s) := by
  refine ⟨fun m sl' _ _ => ?_, ⟨fun h0 => absurd h0 hz, fun h0 => h0.1⟩, by rw [if_neg hz, Nat.sub_zero]⟩
  split
  · next heq => rw [heq.1, heq.2]
  · rfl

theorem none (hz : s.slotZone n sl = 0) (hfull : Full s s') (hspare : s.spare = 0) :
    Made zoned n sl s (0, s') := by
  refine ⟨fun m sl' _ _ => ?_, ⟨fun _ => ⟨hz, hspare⟩, fun _ => rfl⟩, ?_⟩
  · have hslot : s'.slotZone m sl' = s.slotZone m sl' :=
      slotZone_congr (by rw [hfull.inode]) fun _ _ _ => by
        show s'.cache.contents _ = s.cache.contents _
        rw [hfull.cache]
    rw [hslot]
    split
    · next heq => rw [heq.1, heq.2, hz]
    · rfl
  · rw [hfull.spare, hspare, Nat.zero_sub]

theorem fresh (hz : s.slotZone n sl = 0) (hne : z ≠ 0) (ha : Attach zoned n sl z s s')
    (hspare : s'.spare + 1 = s.spare) : Made zoned n sl s (z, s') := by
  refine ⟨ha.slot, ⟨fun h0 => absurd h0 hne, fun h0 => ?_⟩, ?_⟩
  · rw [h0.2] at hspare
    exact absurd hspare (Nat.succ_ne_zero _)
  · rw [if_pos hz, ← hspare, Nat.add_sub_cancel]

/-- What happens to buffers before and after does not matter. -/
theorem same {s₁ s₂ : Dev} (hbefore : Same s s₁) (h : Made zoned n sl s₁ (z, s₂)) (hafter : Same s₂ s') :
    Made zoned n sl s (z, s') := by
  refine ⟨fun m sl' hm hsl => ?_, ?_, ?_⟩
  · rw [hafter.slotZone, ← hbefore.slotZone]
    exact h.slot m sl' hm hsl
  · rw [← hbefore.slotZone, ← hbefore.spare]
    exact h.full
  · rw [hafter.spare, ← hbefore.slotZone, ← hbefore.spare]
    exact h.spare

end Made

/-- A full device stays in order. -/
theorem Dev.Full.zones (h : ZoneInv tight zoned noDead s) (hfull : Full s s') :
    ZoneInv tight zoned noDead s' ∧ Grown zoned n s s' ∧ s'.held = s.held := by
  have hcontents : s'.contents = s.contents := by
    funext b
    show s'.cache.contents b = _
    rw [hfull.cache]
    rfl
  have hheld : s'.held = s.held := by
    funext b
    show s'.cache.held b = _
    rw [hfull.cache]
    rfl
  have hslot : ∀ m sl, s'.slotZone m sl = s.slotZone m sl :=
    fun m sl => slotZone_congr (by rw [hfull.inode]) fun _ _ _ => by rw [hcontents]
  refine ⟨?_, ?_, hheld⟩
  · refine ⟨by rw [hfull.super]; exact h.sound, hfull.zero_bit h.zero_bit, ?_, h.closed, ?_,
      by rw [hfull.cache]; exact h.coherent⟩
    · refine h.owns.congr (fun r z => ?_) hfull.used
      unfold Refers
      rw [hslot]
    · intro z h1 h2 h3
      rw [hfull.super] at h1 h2
      rw [hfull.used] at h3
      rw [hheld]
      exact h.unheld z h1 h2 h3
  · have hread : ∀ b, s.Readable b → s'.Readable b := by
      unfold Dev.Readable
      rw [hfull.cache]
      exact fun _ hb => hb
    refine ⟨fun m p _ _ => ?_, fun m sl _ _ _ => hslot m sl, fun m _ sl _ _ => hslot m sl,
      fun hleg sl hsl hz => ?_, hread, by rw [hfull.cache], hfull.super, hfull.imap, fun m _ => by rw [hfull.inode],
      ⟨(s.inode n).iZone, by rw [hfull.inode]⟩⟩
    · unfold Dev.fileByte
      rw [hslot, hcontents]
    · rw [hslot] at hz ⊢
      exact hread _ (hleg sl hsl hz)

theorem inodeZone_create {i : Nat} (h : ZoneInv tight zoned noDead s) (hn : zoned n) (hi : i < 9) :
    Post (s.inodeZone true n i)
      (fun r => ZoneInv tight zoned noDead r.2 ∧ Grown zoned n s r.2 ∧ r.2.held = s.held ∧
        Made zoned n (.zone i) s r)
      (fun _ => False) := by
  have hvalid : Slot.Valid (.zone i) := hi
  unfold Dev.inodeZone
  split
  · next hempty =>
    refine Post.bind (newBlock_zones h) ?_
    rintro ⟨z, s₁⟩ hnew
    rcases hnew with ⟨hz, hfull, hspare⟩ | hfresh
    · cases hz
      obtain ⟨hinv, hgrown, hheld⟩ := Dev.Full.zones (n := n) h hfull
      exact Post.ret ⟨hinv, hgrown, hheld, Made.none hempty.2 hfull hspare⟩
    · have hz := hfresh.ne_zero h.sound
      have ha := attach_zone h hn hempty.2 hfresh
      simp only [if_neg hz]
      exact Post.ret ⟨ha.inv h hn hvalid hz hfresh.not_used hempty.2, ha.grown hn hempty.2, ha.held,
        Made.fresh hempty.2 hz ha (hfresh.spare h.sound)⟩
  · next hkept => exact Post.ret ⟨h, (Same.refl s).grown, rfl, Made.kept fun h0 => hkept ⟨rfl, h0⟩⟩

theorem held_used {b v z : Nat} (hb : s.Used b) (hz : ¬ s.Used z) (hold : s.held z = 0) :
    Function.update s.held b v z = 0 := by
  rw [Function.update_of_ne, hold]
  rintro rfl
  exact hz hb

/-- The buffer of a used zone is let go. -/
theorem brelse_zones {s₁ : Dev} {b : Nat} (h : ZoneInv tight zoned noDead s₁)
    (hgrown : Grown zoned n s s₁) (hb : s₁.Used b)
    (hheld : s₁.held = Function.update s.held b (s.held b + 1)) :
    Post (s₁.brelse b)
      (fun s' => ZoneInv tight zoned noDead s' ∧ Grown zoned n s s' ∧ s'.held = s.held ∧ Same s₁ s')
      (fun _ => False) := by
  have hone : s₁.held b = s.held b + 1 := by rw [hheld, Function.update_self]
  refine (brelse_spec hone).imp ?_
  rintro s₂ ⟨hsame, hheld₂⟩
  have hback : s₂.held = s.held := by
    rw [hheld₂, hheld, Function.update_idem, Function.update_eq_self]
  refine ⟨h.same hsame fun z hz hold => ?_, hgrown.trans hsame.grown, hback, hsame⟩
  rw [hheld₂]
  exact held_used hb hz hold

theorem entryZone_create {p : Slot} {k : Nat} (h : ZoneInv tight zoned noDead s) (hn : zoned n)
    (hp : p.Index) (hvalid : p.Valid) (hchild : (p.child k).Valid) (hb : s.slotZone n p ≠ 0) :
    Post (s.entryZone true (s.slotZone n p) k)
      (fun r => ZoneInv tight zoned noDead r.2 ∧ Grown zoned n s r.2 ∧ r.2.held = s.held ∧
        (Made zoned n (p.child k) s r ∨ r.1 = 0 ∧ ¬ s.Readable (s.slotZone n p)))
      (fun _ => False) := by
  have hused := h.used hn hvalid hb
  obtain ⟨b, hbdef⟩ : ∃ b, s.slotZone n p = b := ⟨_, rfl⟩
  rw [hbdef] at hb hused ⊢
  unfold Dev.entryZone
  refine Post.bind (bread_spec b s) ?_
  rintro ⟨got, s₁⟩ ⟨hsame, hgot⟩
  rcases hgot with ⟨hgot, hup, hheld⟩ | ⟨hgot, hbad, hheld⟩
  · cases hgot
    have h₁ : ZoneInv tight zoned noDead s₁ :=
      h.same hsame fun z hz hold => by rw [hheld]; exact held_used hused hz hold
    have hb₁ : s₁.slotZone n p = b := by rw [hsame.slotZone, hbdef]
    have hentry : s₁.entry b k = s₁.slotZone n (p.child k) := by
      rw [entry_eq k hup, slotZone_child hp hvalid, hb₁, entryOf, if_neg hb]
    simp only [if_pos]
    split
    · next hempty =>
      have hempty₁ : s₁.slotZone n (p.child k) = 0 := hentry.symm.trans hempty.2
      refine Post.bind (newBlock_zones h₁) ?_
      rintro ⟨z, s₂⟩ hnew
      rcases hnew with ⟨hz, hfull, hspare⟩ | hfresh
      · cases hz
        obtain ⟨h₂, hgrown, hheld₂⟩ := Dev.Full.zones (n := n) h₁ hfull
        simp only [if_pos]
        refine Post.bind (brelse_zones h₂ (hsame.grown.trans hgrown)
          ((hfull.used b).mpr ((hsame.used b).mpr hused)) (hheld₂.trans hheld)) ?_
        rintro s₃ ⟨h₃, hgrown₃, hheld₃, hsame₃⟩
        exact Post.ret ⟨h₃, hgrown₃, hheld₃, Or.inl ((Made.none hempty₁ hfull hspare).same hsame hsame₃)⟩
      · have hz := hfresh.ne_zero h₁.sound
        have hup₂ : (s₂.cache.head b).uptodate = true := hfresh.wrote.uptodate b hup
        have hwrote := Cache.modify_spec (setWord k z) hup₂
        have he : Entered s₂ b k z (s₂.modify b (setWord k z)) :=
          ⟨hwrote.contents, rfl, fun y hy => hy.imp_left (hwrote.uptodate y), hwrote.coherent, rfl, rfl, rfl, rfl⟩
        have hheld₂ : (s₂.modify b (setWord k z)).held = s₁.held :=
          hwrote.held.trans hfresh.wrote.held
        rw [← hb₁] at he
        have hempty' : s₁.entryOf (s₁.slotZone n p) k = 0 := by
          rw [← slotZone_child hp hvalid, hempty₁]
        rw [← hb₁] at hb
        have ha := attach_entry h₁ hn hp hvalid hb hempty' hfresh he (by rw [hb₁]; exact hheld₂)
        rw [hb₁] at ha
        have h₂ := ha.inv h₁ hn hchild hz hfresh.not_used hempty₁
        simp only [if_neg hz]
        refine Post.bind (brelse_zones h₂ (hsame.grown.trans (ha.grown hn hempty₁))
          ((ha.used b).mpr (Or.inl ((hsame.used b).mpr hused))) (hheld₂.trans hheld)) ?_
        rintro s₃ ⟨h₃, hgrown₃, hheld₃, hsame₃⟩
        have hmade := Made.fresh hempty₁ hz ha (hfresh.spare h₁.sound)
        exact Post.ret ⟨h₃, hgrown₃, hheld₃, Or.inl (hmade.same hsame hsame₃)⟩
    · next hkept =>
      refine Post.bind (brelse_zones h₁ (hsame.grown (n := n)) ((hsame.used b).mpr hused) hheld) ?_
      rintro s₃ ⟨h₃, hgrown₃, hheld₃, hsame₃⟩
      rw [hentry] at hkept ⊢
      have hmade : Made zoned n (p.child k) s₁ _ := Made.kept fun h0 => hkept ⟨trivial, h0⟩
      exact Post.ret ⟨h₃, hgrown₃, hheld₃, Or.inl (hmade.same hsame hsame₃)⟩
  · cases hgot
    simp only [Bool.false_eq_true, if_false]
    refine Post.ret ⟨h.same hsame fun z _ hold => by rw [hheld, hold], hsame.grown, hheld,
      Or.inr ⟨rfl, hbad⟩⟩

/-- How many zones a block lacks, itself and its index blocks. -/
def Dev.missing (s : Dev) (n : Nat) (sl : Slot) : Nat :=
  (sl.above ++ [sl]).countP fun p => s.slotZone n p = 0

theorem Dev.missing_zone (s : Dev) (n i : Nat) :
    s.missing n (.zone i) = if s.slotZone n (.zone i) = 0 then 1 else 0 := by
  simp [Dev.missing, Slot.above]

theorem Dev.missing_child {p : Slot} (hp : p.Index) (hvalid : p.Valid) (k : Nat) :
    s.missing n (p.child k) = s.missing n p + if s.slotZone n (p.child k) = 0 then 1 else 0 := by
  cases p with
  | zone i =>
    change 7 ≤ i at hp
    change i < 9 at hvalid
    rcases (show i = 7 ∨ i = 8 by omega) with rfl | rfl
    · simp [Dev.missing, Slot.above, Slot.child, List.countP_cons, Nat.add_comm]
    · simp [Dev.missing, Slot.above, Slot.child, List.countP_cons, Nat.add_comm]
  | ind _ => exact hp.elim
  | dind j =>
    simp only [Dev.missing, Slot.above, Slot.child, List.cons_append, List.nil_append, List.countP_cons,
      List.countP_nil, decide_eq_true_eq, Nat.zero_add]
    exact (Nat.add_assoc ..).trans (Nat.add_comm ..)
  | leaf _ _ => exact hp.elim

/-- `createBlock` has come to slot `sl`, with result `r`. That is 0 when there is no room, or when an index block
above the slot cannot be read. -/
structure Reached (tight : Prop) (zoned : Nat → Prop) (n : Nat) (sl : Slot) (s : Dev) (r : Nat × Dev) : Prop where
  zones : ZoneInv tight zoned noDead r.2
  grown : Grown zoned n s r.2
  held : r.2.held = s.held
  zone : r.1 = 0 ∨ r.1 = r.2.slotZone n sl
  full : s.Legible n → (r.1 = 0 ↔ s.spare < s.missing n sl)
  spare : s.Legible n → r.1 ≠ 0 → r.2.spare = s.spare - s.missing n sl
  other : s.Legible n → r.1 ≠ 0 → ∀ sl' : Slot, sl'.Valid → sl' ≠ sl → sl' ∉ sl.above →
    r.2.slotZone n sl' = s.slotZone n sl'

/-- `createBlock` begins with a slot of the inode itself. -/
theorem inodeZone_reached {i : Nat} (h : ZoneInv tight zoned noDead s) (hn : zoned n) (hi : Slot.Valid (.zone i)) :
    Post (s.inodeZone true n i) (Reached tight zoned n (.zone i) s) (fun _ => False) := by
  refine (inodeZone_create h hn hi).imp ?_
  rintro r ⟨h₁, hgrown, hheld, hmade⟩
  refine ⟨h₁, hgrown, hheld, Or.inr (hmade.self hn hi), fun _ => ?_, fun _ _ => ?_, fun _ _ sl' hsl' hne _ => ?_⟩
  · rw [hmade.full, Dev.missing_zone]
    split <;> omega
  · rw [hmade.spare, Dev.missing_zone]
  · rw [hmade.slot n sl' hn hsl', if_neg fun heq => hne heq.2]

namespace Reached

variable {p : Slot} {k b : Nat}

/-- Behind an index block that is missing there is nothing. -/
theorem none (h : Reached tight zoned n p s (0, s')) (hp : p.Index) (hvalid : p.Valid) (k : Nat) :
    Reached tight zoned n (p.child k) s (0, s') := by
  refine ⟨h.zones, h.grown, h.held, Or.inl rfl, fun hleg => iff_of_true rfl ?_, fun _ hne => absurd rfl hne,
    fun _ hne => absurd rfl hne⟩
  rw [Dev.missing_child hp hvalid]
  exact Nat.lt_of_lt_of_le ((h.full hleg).mp rfl) (Nat.le_add_right ..)

/-- From an index block to one of its entries. -/
theorem entry (h : Reached tight zoned n p s (b, s')) (hn : zoned n) (hp : p.Index) (hvalid : p.Valid) (hk : k < 512)
    (hb : b ≠ 0) : Post (s'.entryZone true b k) (Reached tight zoned n (p.child k) s) (fun _ => False) := by
  obtain ⟨hchild, hmem⟩ := Slot.child_valid hp hvalid hk
  obtain ⟨hne, hnot⟩ := Slot.child_not_above hp hvalid hk
  have hself : b = s'.slotZone n p := h.zone.resolve_left hb
  have hb' : s'.slotZone n p ≠ 0 := hself ▸ hb
  have hcreate := entryZone_create h.zones hn hp hvalid hchild hb'
  rw [← hself] at hcreate
  refine hcreate.imp ?_
  rintro r ⟨h₁, hgrown, hheld, hgot⟩
  have hmade : s.Legible n → Made zoned n (p.child k) s' r := fun hleg =>
    hgot.resolve_right fun hbad => hbad.2 (hself ▸ h.grown.legible hleg p hvalid hb')
  refine ⟨h₁, h.grown.trans hgrown, hheld.trans h.held, ?_, fun hleg => ?_, fun hleg _ => ?_,
    fun hleg _ sl' hsl' hne' hnot' => ?_⟩
  · exact hgot.symm.imp (fun hbad => hbad.1) fun hmade => hmade.self hn hchild
  · have hroom : ¬ s.spare < s.missing n p := fun hlt => hb ((h.full hleg).mpr hlt)
    rw [(hmade hleg).full, h.other hleg hb _ hchild hne hnot, h.spare hleg hb, Dev.missing_child hp hvalid]
    split <;> omega
  · rw [(hmade hleg).spare, h.other hleg hb _ hchild hne hnot, h.spare hleg hb, Dev.missing_child hp hvalid]
    exact Nat.sub_sub ..
  · rw [(hmade hleg).slot n sl' hn hsl', if_neg fun heq => hne' heq.2]
    refine h.other hleg hb sl' hsl' (fun heq => hnot' (heq ▸ hmem)) fun habove => hnot' (Slot.above_trans habove hmem)

end Reached

theorem createBlock_reached {block : Nat} (h : ZoneInv tight zoned noDead s) (hn : zoned n)
    (hblock : block < maxBlocks) :
    Post (s.createBlock n block) (Reached tight zoned n (Slot.ofBlock block) s) (fun _ => False) := by
  obtain ⟨hsl, -⟩ := Slot.ofBlock_valid hblock
  refine bmapCreate_rule (P := fun sl => Reached tight zoned n sl s) rfl hblock
    (fun i hi => inodeZone_reached h hn ?_) (fun p hp k _ s' hr => ?_) fun p hp k hk _ b s' hb hr => ?_
  · rcases hi with heq | hi
    · rwa [← heq]
    · exact (Slot.above_valid hsl hi).1
  · obtain ⟨hvalid, hindex⟩ := Slot.above_valid hsl hp
    exact hr.none hindex hvalid k
  · obtain ⟨hvalid, hindex⟩ := Slot.above_valid hsl hp
    exact hr.entry hn hindex hvalid hk hb

/-- `createBlock` keeps the zones in order and the files as they are. It returns the zone of the block,
or 0 when there is no room or an index block cannot be read. -/
theorem createBlock_spec {block : Nat} (h : ZoneInv tight zoned noDead s) (hn : zoned n)
    (hblock : block < maxBlocks) :
    Post (s.createBlock n block)
      (fun r => ZoneInv tight zoned noDead r.2 ∧ Grown zoned n s r.2 ∧ r.2.held = s.held ∧
        (r.1 = 0 ∨ r.1 = r.2.slotZone n (Slot.ofBlock block)) ∧
        (s.Legible n → (r.1 = 0 ↔ s.spare < s.missing n (Slot.ofBlock block))))
      (fun _ => False) :=
  (createBlock_reached h hn hblock).imp fun _ hr => ⟨hr.zones, hr.grown, hr.held, hr.zone, hr.full⟩

end Linux011.Fs
