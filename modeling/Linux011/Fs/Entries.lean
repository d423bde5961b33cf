import Mathlib.Combinatorics.Pigeonhole
import Linux011.Fs.Zones

/-!
# Directory entries

`add_entry` of `fs/namei.c`. A directory is a file of entries of 16 bytes, an inode number and a name of
14 characters. `add_entry` takes the first entry that is free or beyond the end (`FirstFree`), and needs a
new block if that entry has none (`Room`).
-/

namespace Linux011.Fs

open Linux011.Lib

/-- `NAME_LEN` -/
def nameLen : Nat := 14

namespace Dev

/-- `de->inode`, for entry `k` of a block -/
def entryInode (data : Nat → UInt8) (k : Nat) : Nat := word data (8 * k)

/-- The name of an entry, filled up with zeroes. -/
def putName (name : List UInt8) (k : Nat) (data : Nat → UInt8) (p : Nat) : UInt8 :=
  if 16 * k + 2 ≤ p ∧ p < 16 * k + 2 + nameLen then name.getD (p - (16 * k + 2)) 0 else data p

/-- The head of the loop of `add_entry`, before entry `i` of the directory, which is entry `k` of the
block `b`. A block that cannot be read is passed over without a buffer. -/
def addBlock (dir i b k : Nat) (s : Dev) : Except Panic (Option (Nat × Nat) × Dev) :=
  if k < 64 then .ok (some (b, k), s)
  else do
    let s ← s.brelse b
    let r ← s.createBlock dir (i / 64)
    if r.1 = 0 then return (none, r.2)
    else do
      let r' ← r.2.bread r.1
      if r'.1 then return (some (r.1, 0), r'.2) else .error "add_entry: bh is NULL"

/-- An entry beyond the end of the directory is taken in. -/
def extend (dir i b k : Nat) (s : Dev) : Dev :=
  if (s.inode dir).iSize ≤ 16 * i then
    { s with
      cache := s.cache.set b { s.cache.head b with data := setWord (8 * k) 0 (s.cache.head b).data }
      inode := Function.update s.inode dir { s.inode dir with iSize := 16 * (i + 1) } }
  else s

/-- The loop of `add_entry`. -/
def addLoop (dir : Nat) (name : List UInt8) :
    (turns i b k : Nat) → Dev → Except Panic (Option (Nat × Nat) × Dev)
  | 0, _, _, _, _ => .error "add_entry: no end"
  | turns + 1, i, b, k, s => do
    let r ← s.addBlock dir i b k
    match r.1 with
    | none => return (none, r.2)
    | some (b, k) =>
      let s := r.2.extend dir i b k
      if entryInode (s.cache.head b).data k = 0 then return (some (b, k), s.modify b (putName name k))
      else addLoop dir name turns (i + 1) b (k + 1) s

/-- `add_entry`, with the buffer and the place of the entry. The loop ends at the first entry beyond the
end of the directory. -/
def addEntry (dir : Nat) (name : List UInt8) (s : Dev) : Except Panic (Option (Nat × Nat) × Dev) :=
  let name := name.take nameLen
  if name = [] then .ok (none, s)
  else if (s.inode dir).iZone 0 = 0 then .ok (none, s)
  else do
    let r ← s.bread ((s.inode dir).iZone 0)
    if r.1 then r.2.addLoop dir name ((s.inode dir).iSize / 16 + 2) 0 ((s.inode dir).iZone 0) 0
    else return (none, r.2)

/-! ## The directory as a file -/

/-- The inode number in entry `i` of a directory. -/
def entryNr (s : Dev) (dir i : Nat) : Nat := word (s.fileByte dir) (8 * i)

/-- Entry `i` is free, or there is no such entry. -/
def Usable (s : Dev) (dir i : Nat) : Prop := (s.inode dir).iSize ≤ 16 * i ∨ s.entryNr dir i = 0

def FirstFree (s : Dev) (dir i : Nat) : Prop := s.Usable dir i ∧ ∀ j < i, ¬ s.Usable dir j

/-- There is an entry to be had, with at most `zones` new zones. -/
def Room (s : Dev) (dir zones : Nat) : Prop :=
  (s.inode dir).iZone 0 ≠ 0 ∧
    ∀ i, s.FirstFree dir i → s.missing dir (Slot.ofBlock (i / 64)) ≤ zones

end Dev

open Dev

variable {tight : Prop} {zoned : Nat → Prop} {s s' : Dev} {dir n i b k : Nat}

theorem Dev.FirstFree.unique {j : Nat} (h : s.FirstFree dir i) (h' : s.FirstFree dir j) : i = j := by
  rcases Nat.lt_trichotomy i j with hlt | heq | hgt
  · exact absurd h.1 (h'.2 i hlt)
  · exact heq
  · exact absurd h'.1 (h.2 j hgt)

theorem exists_firstFree (s : Dev) (dir : Nat) : ∃ i, s.FirstFree dir i := by
  classical
  have hex : ∃ i, s.Usable dir i := ⟨(s.inode dir).iSize, Or.inl (by omega)⟩
  exact ⟨Nat.find hex, Nat.find_spec hex, fun j hj => Nat.find_min hex hj⟩

/-- A block that is there has its index blocks. -/
theorem missing_eq_zero {sl : Slot} (h : s.slotZone n sl ≠ 0) : s.missing n sl = 0 := by
  unfold Dev.missing
  rw [List.countP_eq_zero]
  intro p hp
  rw [decide_eq_true_eq]
  rcases List.mem_append.mp hp with habove | hself
  · exact fun hz => h (slotZone_below habove hz)
  · rw [List.mem_singleton.mp hself]
    exact h

/-- A missing block has no entries. -/
theorem entryNr_missing (h : s.slotZone dir (Slot.ofBlock (i / 64)) = 0) : s.entryNr dir i = 0 := by
  have hblock : 2 * (8 * i) / 1024 = i / 64 ∧ (2 * (8 * i) + 1) / 1024 = i / 64 := by omega
  simp [Dev.entryNr, Dev.word, Dev.fileByte, hblock.1, hblock.2, h]

/-- The buffer of a block shows the entries. -/
theorem entryNr_head (hup : (s.cache.head b).uptodate = true)
    (hb : s.slotZone dir (Slot.ofBlock (i / 64)) = b) (hne : b ≠ 0) (hk : i % 64 = k) :
    s.entryNr dir i = entryInode (s.cache.head b).data k := by
  have hblock : 2 * (8 * i) / 1024 = i / 64 ∧ (2 * (8 * i) + 1) / 1024 = i / 64 := by omega
  have hoff : 2 * (8 * i) % 1024 = 2 * (8 * k) ∧ (2 * (8 * i) + 1) % 1024 = 2 * (8 * k) + 1 := by omega
  have hdata : s.contents b = (s.cache.head b).data := by
    show s.cache.contents b = _
    unfold Cache.contents
    rw [if_pos hup]
  unfold Dev.entryNr entryInode Dev.word Dev.fileByte
  rw [hblock.1, hblock.2, hoff.1, hoff.2, hb, if_neg hne, if_neg hne, hdata]

theorem Grown.entryNr (h : Grown zoned dir s s') (hn : zoned n) (hi : i / 64 < maxBlocks) :
    s'.entryNr n i = s.entryNr n i := by
  unfold Dev.entryNr Dev.word
  rw [h.file n _ hn (by omega), h.file n _ hn (by omega)]

/-! ## Blocks that are there -/

theorem Dev.Same.entryOf (h : Same s s') (b k : Nat) : s'.entryOf b k = s.entryOf b k := by
  unfold Dev.entryOf
  rw [h.contents]

theorem entryZone_found (hb : b ≠ 0) (hk : s.entryOf b k ≠ 0) :
    Post (s.entryZone true b k) (fun r => Same s r.2 ∧ (r.1 = 0 ∨ r.1 = s.entryOf b k)) (fun _ => False) := by
  unfold Dev.entryZone
  refine Post.bind (bread_spec b s) ?_
  rintro ⟨got, s₁⟩ ⟨hsame, hgot⟩
  rcases hgot with ⟨hgot, hup, hheld⟩ | ⟨hgot, -, -⟩
  · cases hgot
    have hentry : s₁.entry b k = s.entryOf b k := by
      rw [entry_eq k hup, hsame.contents, Dev.entryOf, if_neg hb]
    simp only [if_pos]
    rw [if_neg (by rw [hentry]; exact fun h0 => hk h0.2)]
    have hone : s₁.held b = s.held b + 1 := by rw [hheld, Function.update_self]
    refine Post.bind (brelse_spec hone) ?_
    rintro s₂ ⟨hsame₂, -⟩
    exact Post.ret ⟨hsame.trans hsame₂, Or.inr hentry⟩
  · cases hgot
    exact Post.ret ⟨hsame, Or.inl rfl⟩

/-- `create_block` of a block that is there changes nothing. -/
theorem createBlock_found {block : Nat} (hblock : block < maxBlocks)
    (hz : s.slotZone n (Slot.ofBlock block) ≠ 0) :
    Post (s.createBlock n block) (fun r => Same s r.2) (fun _ => False) := by
  obtain ⟨hsl, -⟩ := Slot.ofBlock_valid hblock
  -- nothing is missing on the way to the block
  have hway : ∀ q, Slot.ofBlock block = q ∨ q ∈ (Slot.ofBlock block).above → s.slotZone n q ≠ 0 := by
    rintro q (rfl | hq)
    · exact hz
    · exact fun h0 => hz (slotZone_below hq h0)
  have hfound : Post (s.createBlock n block)
      (fun r => Same s r.2 ∧ (r.1 = 0 ∨ r.1 = s.slotZone n (Slot.ofBlock block))) (fun _ => False) := by
    refine bmapCreate_rule (P := fun sl r => Same s r.2 ∧ (r.1 = 0 ∨ r.1 = s.slotZone n sl))
      rfl hblock (fun i hi => ?_) (fun p _ k _ s' hr => ⟨hr.1, Or.inl rfl⟩) fun p hp k _ hk b s' hb hr => ?_
    · unfold Dev.inodeZone
      rw [if_neg fun h0 => hway _ hi h0.2]
      exact Post.ret ⟨Same.refl s, Or.inr rfl⟩
    · obtain ⟨hvalid, hindex⟩ := Slot.above_valid hsl hp
      obtain ⟨hsame, hself⟩ := hr
      have hself : b = s.slotZone n p := hself.resolve_left hb
      have hchild : s'.entryOf b k = s.slotZone n (p.child k) := by
        rw [hsame.entryOf, hself, slotZone_child hindex hvalid]
      refine (entryZone_found hb (hchild ▸ hway _ hk)).imp fun r hr => ⟨hsame.trans hr.1, ?_⟩
      rw [← hchild]
      exact hr.2
  exact hfound.imp fun r hr => hr.1

/-! ## The search -/

theorem ofBlock_inj {a c : Nat} (h : Slot.ofBlock a = Slot.ofBlock c) : a = c := by
  unfold Slot.ofBlock at h
  grind

/-- There are fewer zones than a file can have blocks, so a directory without holes does not reach the
limit of `_bmap`. -/
theorem block_lt (h : ZoneInv tight zoned noDead s) (hn : zoned n) {j : Nat}
    (hall : ∀ c < j, s.slotZone n (Slot.ofBlock c) ≠ 0) : j < maxBlocks := by
  by_contra hge
  have hmax : 2 ^ 16 ≤ maxBlocks := by decide
  have hsmall := h.sound.nzones_lt
  have hmaps : ∀ c ∈ Finset.range (2 ^ 16), s.slotZone n (Slot.ofBlock c) ∈ Finset.range s.super.sNzones := by
    intro c hc
    rw [Finset.mem_range] at hc ⊢
    have hvalid := (Slot.ofBlock_valid (show c < maxBlocks by omega)).1
    exact (h.used hn hvalid (hall c (by omega))).2.1
  obtain ⟨c, hc, d, hd, hne, heq⟩ := Finset.exists_ne_map_eq_of_card_lt_of_maps_to
    (by rw [Finset.card_range, Finset.card_range]; exact hsmall) hmaps
  rw [Finset.mem_range] at hc hd
  have hvalid := fun c hc => (Slot.ofBlock_valid (show c < maxBlocks by omega)).1
  exact hne (ofBlock_inj (h.inj hn hn (hvalid c (by omega)) (hvalid d (by omega)) (hall c (by omega)) heq).2)

/-- `add_entry` has come to entry `i` of the directory, which is entry `k` of the block `b` or the first one
behind it. The entries before it are taken. -/
structure Scan (tight : Prop) (zoned : Nat → Prop) (s : Dev) (dir i b k : Nat) (s' : Dev) : Prop where
  inv : ZoneInv tight zoned noDead s'
  grown : Grown zoned dir s s'
  held : s'.held = Function.update s.held b (s.held b + 1)
  uptodate : (s'.cache.head b).uptodate = true
  within : k ≤ 64 ∧ ∃ j, i = 64 * j + k ∧ j < maxBlocks ∧ s'.slotZone dir (Slot.ofBlock j) = b ∧
    s.missing dir (Slot.ofBlock j) ≤ s.spare ∧ (s.missing dir (Slot.ofBlock j) = 0 → Same s s')
  full : b ≠ 0
  taken : ∀ j < i, ¬ s.Usable dir j

/-- The block with entry `i` is at hand, and the entries before it are taken. -/
theorem Scan.entryNr (h : Scan tight zoned s dir i b k s') (hdir : zoned dir) (hk : k < 64) :
    s.entryNr dir i = entryInode (s'.cache.head b).data k := by
  obtain ⟨-, j, hi, hj, hb, -⟩ := h.within
  have hdiv : i / 64 = j := by omega
  rw [← h.grown.entryNr hdir (by rw [hdiv]; exact hj)]
  exact entryNr_head h.uptodate (by rw [hdiv]; exact hb) h.full (by omega)

theorem present_of_taken (h : ¬ s.Usable dir i) : s.slotZone dir (Slot.ofBlock (i / 64)) ≠ 0 :=
  fun hz => h (Or.inr (entryNr_missing hz))

/-- The block of an entry that is taken is there. -/
theorem present_before (htaken : ∀ j < i, ¬ s.Usable dir j) {c : Nat} (hc : 64 * c < i) :
    s.slotZone dir (Slot.ofBlock c) ≠ 0 := by
  have hthere := present_of_taken (htaken (64 * c) hc)
  rwa [Nat.mul_div_cancel_left c (by decide)] at hthere

/-- The block behind us is full, so it was there before the call. It is given back. -/
theorem Scan.leave (hdir : zoned dir) (h : Scan tight zoned s dir i b 64 s') :
    Post (s'.brelse b)
      (fun s₁ => ZoneInv tight zoned noDead s₁ ∧ Same s s₁ ∧ s₁.held = s.held ∧ i / 64 < maxBlocks)
      (fun _ => False) := by
  obtain ⟨-, j, hij, hj, hb, -, hsame⟩ := h.within
  have hsame := hsame (missing_eq_zero (present_before h.taken (by omega)))
  have hone : s'.held b = s.held b + 1 := by rw [h.held, Function.update_self]
  refine (brelse_spec hone).imp ?_
  rintro s₁ ⟨hsame₁, hheld₁⟩
  have hused : s'.Used b := by
    rw [← hb]
    exact h.inv.used hdir (Slot.ofBlock_valid hj).1 (by rw [hb]; exact h.full)
  have h₁ : ZoneInv tight zoned noDead s₁ := h.inv.same hsame₁ fun z hz hold => by
    rw [hheld₁]
    exact held_used hused hz hold
  have hback := hsame.trans hsame₁
  refine ⟨h₁, hback, ?_, block_lt h₁ hdir fun c hc => ?_⟩
  · rw [hheld₁, h.held, Function.update_idem, Function.update_eq_self]
  · rw [hback.slotZone]
    exact present_before h.taken (by omega)

/-- The head of the loop finds the block of the next entry, or there is no room. -/
theorem addBlock_spec (hleg : s.Legible dir) (hdir : zoned dir)
    (h : Scan tight zoned s dir i b k s') (hi : 0 < i ∨ k < 64) :
    Post (s'.addBlock dir i b k)
      (fun r => (r.1 = none ∧ ZoneInv tight zoned noDead r.2 ∧ Grown zoned dir s r.2 ∧ r.2.held = s.held ∧
          ∀ i', s.FirstFree dir i' → s.spare < s.missing dir (Slot.ofBlock (i' / 64))) ∨
        ∃ b' k', r.1 = some (b', k') ∧ k' < 64 ∧ Scan tight zoned s dir i b' k' r.2)
      (fun _ => False) := by
  unfold addBlock
  by_cases hk : k < 64
  · rw [if_pos hk]
    exact Post.ret (Or.inr ⟨b, k, rfl, hk, h⟩)
  · rw [if_neg hk]
    obtain rfl : k = 64 := Nat.le_antisymm h.within.1 (Nat.not_lt.mp hk)
    obtain ⟨-, j, hij, -⟩ := h.within
    refine Post.bind (h.leave hdir) ?_
    rintro s₁ ⟨h₁, hback, hheld, hlimit⟩
    refine Post.bind ((createBlock_spec h₁ hdir hlimit).and (Post.self _) |>.mono (fun _ hr => hr) fun _ hf => hf.1) ?_
    rintro ⟨z, s₂⟩ ⟨⟨h₂, hgrown₂, hheld₂, hself₂, hroom₂⟩, hcreate⟩
    have hspare : s₁.spare = s.spare := hback.spare
    have hmissing : s₁.missing dir (Slot.ofBlock (i / 64)) = s.missing dir (Slot.ofBlock (i / 64)) := by
      unfold Dev.missing
      simp only [hback.slotZone]
    have hroom₂ := hroom₂ (hback.legible hleg)
    rw [hspare, hmissing] at hroom₂
    simp only at hself₂ hheld₂ hroom₂ h₂ hgrown₂ ⊢
    split
    · next hz =>
      refine Post.ret (Or.inl ⟨rfl, h₂, hback.grown.trans hgrown₂, hheld₂.trans hheld, fun i' hfirst => ?_⟩)
      -- the missing block would have had the first free entry
      have hfree : s.FirstFree dir i := by
        refine ⟨?_, h.taken⟩
        by_contra htaken
        have hzero := missing_eq_zero (present_of_taken htaken)
        rw [hzero] at hroom₂
        exact absurd (hroom₂.mp hz) (Nat.not_lt_zero _)
      rw [hfirst.unique hfree]
      exact hroom₂.mp hz
    · next hz =>
      have hself := hself₂.resolve_left hz
      refine Post.bind (bread_spec z s₂) ?_
      rintro ⟨got, s₃⟩ ⟨hsame₃, hgot⟩
      rcases hgot with ⟨hgot, hup, hheld₃⟩ | ⟨-, hbad, -⟩
      · cases hgot
        simp only [if_pos]
        have hused₂ : s₂.Used z := by
          rw [hself]
          exact h₂.used hdir (Slot.ofBlock_valid hlimit).1 (by rw [← hself]; exact hz)
        refine Post.ret (Or.inr ⟨z, 0, rfl, by decide, ?_, (hback.grown.trans hgrown₂).trans hsame₃.grown, ?_,
          hup, ⟨by decide, i / 64, by omega, hlimit, ?_, ?_, ?_⟩, hz, h.taken⟩)
        · refine h₂.same hsame₃ fun y hy hold => ?_
          rw [hheld₃]
          exact held_used hused₂ hy hold
        · rw [hheld₃, hheld₂, hheld]
        · rw [hsame₃.slotZone, ← hself]
        · exact Nat.not_lt.mp fun hlt => hz (hroom₂.mpr hlt)
        · intro hzero
          have hfound : s₁.slotZone dir (Slot.ofBlock (i / 64)) ≠ 0 := by
            rw [hback.slotZone]
            intro h0
            have hmem := List.countP_eq_zero.mp hzero (Slot.ofBlock (i / 64))
              (List.mem_append.mpr (Or.inr (List.mem_singleton.mpr rfl)))
            rw [decide_eq_true_eq] at hmem
            exact hmem h0
          exact (hback.trans ((createBlock_found hlimit hfound).of_ok _ hcreate)).trans hsame₃
      · rw [hself] at hz hbad
        exact absurd (hgrown₂.legible (hback.legible hleg) _ (Slot.ofBlock_valid hlimit).1 hz) hbad

/-! ## What `add_entry` does -/

/-- `add_entry` has found no room. -/
structure Crowded (tight : Prop) (zoned : Nat → Prop) (s : Dev) (dir : Nat) (s' : Dev) : Prop where
  inv : ZoneInv tight zoned noDead s'
  grown : Grown zoned dir s s'
  held : s'.held = s.held

/-- `add_entry` has an entry in the block `b`, whose buffer it holds. -/
structure Placed (s : Dev) (dir b : Nat) (s' : Dev) : Prop where
  held : s'.held = Function.update s.held b (s.held b + 1)
  super : s'.super = s.super
  imap : s'.imap = s.imap
  inode_ne : ∀ m ≠ dir, s'.inode m = s.inode m
  inode_self : ∃ zone size, s'.inode dir = { s.inode dir with iZone := zone, iSize := size }

/-- Changing the bytes of a buffer holds nothing and lets nothing go. -/
theorem held_data {c : Cache} (data : Nat → UInt8) (dirt : Bool) :
    (c.set b { c.head b with data := data, dirt := dirt }).held = c.held := by
  rw [Cache.set_held]
  exact Function.update_eq_self b c.held

/-- The entry at which the search stops gets its name. -/
theorem Scan.place (hdir : zoned dir) (h : Scan tight zoned s dir i b k s') (hk : k < 64) (name : List UInt8)
    (hfree : entryInode ((s'.extend dir i b k).cache.head b).data k = 0) :
    s.FirstFree dir i ∧ Placed s dir b ((s'.extend dir i b k).modify b (putName name k)) := by
  obtain ⟨zone, hzone⟩ := h.grown.inode_self
  have hsize := h.grown.size
  unfold extend at hfree ⊢
  by_cases hend : (s'.inode dir).iSize ≤ 16 * i
  · rw [if_pos hend]
    refine ⟨⟨Or.inl (by rw [← hsize]; exact hend), h.taken⟩, ?_, h.grown.super, h.grown.imap, fun m hm => ?_,
      zone, 16 * (i + 1), ?_⟩
    · show (Cache.modify b _ _).held = _
      unfold Cache.modify
      rw [held_data]
      show (s'.cache.set b _).held = _
      rw [held_data]
      exact h.held
    · show Function.update s'.inode dir _ m = _
      rw [Function.update_of_ne hm]
      exact h.grown.inode_ne m hm
    · show Function.update s'.inode dir _ dir = _
      rw [Function.update_self, hzone]
  · rw [if_neg hend] at hfree ⊢
    refine ⟨⟨Or.inr ?_, h.taken⟩, ?_, h.grown.super, h.grown.imap, h.grown.inode_ne, zone, _, hzone⟩
    · rw [h.entryNr hdir hk]
      exact hfree
    · show (Cache.modify b _ _).held = _
      unfold Cache.modify
      rw [held_data]
      exact h.held

/-- A taken entry is passed over, and it is not behind the end of the directory. -/
theorem Scan.next (hdir : zoned dir) (h : Scan tight zoned s dir i b k s') (hk : k < 64)
    (htaken : entryInode ((s'.extend dir i b k).cache.head b).data k ≠ 0) :
    s'.extend dir i b k = s' ∧ Scan tight zoned s dir (i + 1) b (k + 1) s' := by
  have hsize := h.grown.size
  unfold extend at htaken ⊢
  by_cases hend : (s'.inode dir).iSize ≤ 16 * i
  · -- an entry that has just been taken in is free
    rw [if_pos hend] at htaken
    refine absurd ?_ htaken
    show entryInode ((s'.cache.set b _).head b).data k = 0
    rw [Cache.head_set_self]
    show word (setWord (8 * k) 0 _) (8 * k) = 0
    rw [word_setWord _ (by decide), if_pos rfl]
  · rw [if_neg hend] at htaken ⊢
    obtain ⟨hk64, j, hij, hj, hb, hroom, hsame⟩ := h.within
    refine ⟨rfl, h.inv, h.grown, h.held, h.uptodate, ⟨by omega, j, by omega, hj, hb, hroom, hsame⟩, h.full, ?_⟩
    intro c hc
    rcases Nat.lt_succ_iff_lt_or_eq.mp hc with hlt | rfl
    · exact h.taken c hlt
    · rintro (hsmall | hzero)
      · rw [hsize] at hend
        exact hend hsmall
      · rw [h.entryNr hdir hk] at hzero
        exact htaken hzero

theorem addLoop_spec (hleg : s.Legible dir) (hdir : zoned dir) (name : List UInt8) :
    ∀ (turns i b k : Nat) (s' : Dev), Scan tight zoned s dir i b k s' → (0 < i ∨ k < 64) →
    i + turns = (s.inode dir).iSize / 16 + 2 →
    Post (s'.addLoop dir name turns i b k)
      (fun r => (r.1 = none ∧ Crowded tight zoned s dir r.2 ∧
          ∀ i', s.FirstFree dir i' → s.spare < s.missing dir (Slot.ofBlock (i' / 64))) ∨
        ∃ b' k', r.1 = some (b', k') ∧ Placed s dir b' r.2 ∧
          ∀ i', s.FirstFree dir i' → s.missing dir (Slot.ofBlock (i' / 64)) ≤ s.spare)
      (fun _ => False)
  | 0, i, b, k, s', h, hi, hturns => by
    -- the entry before this one is beyond the end, so it was not taken
    refine absurd (Or.inl ?_) (h.taken (i - 1) (by omega))
    omega
  | turns + 1, i, b, k, s', h, hi, hturns => by
    unfold addLoop
    refine Post.bind (addBlock_spec hleg hdir h hi) ?_
    rintro ⟨found, s₁⟩ (⟨hnone, h₁, hgrown₁, hheld₁, hroom⟩ | ⟨b', k', hfound, hk', h₁⟩)
    · cases hnone
      exact Post.ret (Or.inl ⟨rfl, ⟨h₁, hgrown₁, hheld₁⟩, hroom⟩)
    · cases hfound
      simp only
      split
      · next hfree =>
        obtain ⟨hfirst, hplaced⟩ := h₁.place hdir hk' name hfree
        refine Post.ret (Or.inr ⟨b', k', rfl, hplaced, fun i' hfirst' => ?_⟩)
        obtain ⟨-, j, hij, -, -, hroom, -⟩ := h₁.within
        rw [hfirst'.unique hfirst, show i / 64 = j by omega]
        exact hroom
      · next htaken =>
        obtain ⟨hsame, hnext⟩ := h₁.next hdir hk' htaken
        rw [hsame]
        exact addLoop_spec hleg hdir name turns (i + 1) b' (k' + 1) s₁ hnext (Or.inl (Nat.succ_pos i))
          (by omega)

/-- `add_entry` gives an entry if and only if there is room, and does not panic. -/
theorem addEntry_spec (hleg : s.Legible dir) (h : ZoneInv tight zoned noDead s)
    (hdir : zoned dir) {name : List UInt8} (hname : name ≠ []) :
    Post (s.addEntry dir name)
      (fun r => (r.1 = none ∧ ¬ s.Room dir s.spare ∧ Crowded tight zoned s dir r.2) ∨
        ∃ b k, r.1 = some (b, k) ∧ s.Room dir s.spare ∧ Placed s dir b r.2)
      (fun _ => False) := by
  have hshort : name.take nameLen ≠ [] := by
    cases name with
    | nil => exact absurd rfl hname
    | cons c cs => exact List.cons_ne_nil _ _
  unfold addEntry
  simp only
  rw [if_neg hshort]
  by_cases hz : (s.inode dir).iZone 0 = 0
  · rw [if_pos hz]
    exact Post.ret (Or.inl ⟨rfl, fun hroom => hroom.1 hz, h, (Same.refl s).grown, rfl⟩)
  · rw [if_neg hz]
    have hslot : s.slotZone dir (Slot.ofBlock 0) = (s.inode dir).iZone 0 := rfl
    have hused : s.Used ((s.inode dir).iZone 0) := h.used hdir (show Slot.Valid (.zone 0) by show 0 < 9; omega) hz
    have hzero : s.missing dir (Slot.ofBlock 0) = 0 := missing_eq_zero (by rw [hslot]; exact hz)
    refine Post.bind (bread_spec _ s) ?_
    rintro ⟨got, s₁⟩ ⟨hsame, hgot⟩
    rcases hgot with ⟨hgot, hup, hheld⟩ | ⟨-, hbad, -⟩
    · cases hgot
      have hscan : Scan tight zoned s dir 0 ((s.inode dir).iZone 0) 0 s₁ := by
        refine ⟨?_, hsame.grown, hheld, hup, ⟨by decide, 0, rfl, by decide, ?_, ?_, fun _ => hsame⟩, hz,
          fun j hj => absurd hj (Nat.not_lt_zero j)⟩
        · refine h.same hsame fun y hy hold => ?_
          rw [hheld]
          exact held_used hused hy hold
        · rw [hsame.slotZone, hslot]
        · rw [hzero]
          exact Nat.zero_le _
      refine (addLoop_spec hleg hdir (name.take nameLen) _ _ _ _ s₁ hscan (Or.inr (by decide))
        (Nat.zero_add _)).imp ?_
      rintro r (⟨hnone, hcrowded, hroom⟩ | ⟨b', k', hfound, hplaced, hroom⟩)
      · refine Or.inl ⟨hnone, fun hyes => ?_, hcrowded⟩
        obtain ⟨i, hi⟩ := exists_firstFree s dir
        exact absurd (hyes.2 i hi) (Nat.not_le.mpr (hroom i hi))
      · exact Or.inr ⟨b', k', hfound, ⟨hz, hroom⟩, hplaced⟩
    · exact absurd (hleg (.zone 0) (show 0 < 9 by omega) hz) hbad

end Linux011.Fs
