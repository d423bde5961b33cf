import Linux011.Fs.Zones
import Linux011.Lib.Run

/-!
# Giving zones back

`truncate` and `iput` of a file without links. While an index block is freed entry by entry, the slots behind the
entries that are done still hold the numbers of zones that have been freed: they are `dead`. In the end the zone
of each slot that is left is used, and by nobody else, whatever blocks have been created and freed before.
-/

namespace Linux011.Fs

open Linux011.Lib Dev

variable {tight : Prop} {zoned : Nat → Prop} {dead : Nat × Slot → Prop} {s s' s'' : Dev} {n : Nat}

/-- The slot itself and the slots of the blocks behind it. -/
def Below (n : Nat) (sl : Slot) (r : Nat × Slot) : Prop := r.1 = n ∧ (r.2 = sl ∨ sl ∈ r.2.above)

/-- What lies behind a slot, and what lies behind that. -/
theorem closed_below {p : Slot} (hclosed : ∀ n sl p, sl.Valid → p ∈ sl.above → dead (n, p) → dead (n, sl)) :
    ∀ m sl q, sl.Valid → q ∈ sl.above → dead (m, q) ∨ Below n p (m, q) → dead (m, sl) ∨ Below n p (m, sl) := by
  rintro m sl q hsl hq (hd | ⟨hm, hb⟩)
  · exact Or.inl (hclosed m sl q hsl hq hd)
  · refine Or.inr ⟨hm, Or.inr ?_⟩
    rcases hb with rfl | hb
    · exact hq
    · exact Slot.above_trans hb hq

/-- What freeing zones leaves as it was: the live slots and what their zones hold. -/
structure Trimmed (zoned : Nat → Prop) (dead : Nat × Slot → Prop) (s s' : Dev) : Prop where
  slot : ∀ m sl, zoned m → sl.Valid → ¬ dead (m, sl) → s'.slotZone m sl = s.slotZone m sl
  data : ∀ m sl, zoned m → sl.Valid → ¬ dead (m, sl) → s.slotZone m sl ≠ 0 →
    s'.contents (s.slotZone m sl) = s.contents (s.slotZone m sl)
  uptodate : ∀ m sl, zoned m → sl.Valid → ¬ dead (m, sl) → s.slotZone m sl ≠ 0 →
    (s.cache.head (s.slotZone m sl)).uptodate = true →
    (s'.cache.head (s.slotZone m sl)).uptodate = true
  held : s'.held = s.held
  works : s'.cache.works = s.cache.works
  super : s'.super = s.super
  imap : s'.imap = s.imap
  inode : s'.inode = s.inode

theorem Trimmed.mono {dead' : Nat × Slot → Prop} (h : Trimmed zoned dead s s')
    (hdead : ∀ r, dead r → dead' r) : Trimmed zoned dead' s s' := by
  refine ⟨?_, ?_, ?_, h.held, h.works, h.super, h.imap, h.inode⟩
  · exact fun m sl hm hsl hlive => h.slot m sl hm hsl fun hd => hlive (hdead _ hd)
  · exact fun m sl hm hsl hlive => h.data m sl hm hsl fun hd => hlive (hdead _ hd)
  · exact fun m sl hm hsl hlive => h.uptodate m sl hm hsl fun hd => hlive (hdead _ hd)

theorem Trimmed.trans (h : Trimmed zoned dead s s') (h' : Trimmed zoned dead s' s'') :
    Trimmed zoned dead s s'' := by
  refine ⟨?_, ?_, ?_, h'.held.trans h.held, h'.works.trans h.works, h'.super.trans h.super,
    h'.imap.trans h.imap, h'.inode.trans h.inode⟩
  · intro m sl hm hsl hlive
    rw [h'.slot m sl hm hsl hlive, h.slot m sl hm hsl hlive]
  · intro m sl hm hsl hlive hz
    have hslot := h.slot m sl hm hsl hlive
    have hdata := h'.data m sl hm hsl hlive (by rw [hslot]; exact hz)
    rw [hslot] at hdata
    rw [hdata, h.data m sl hm hsl hlive hz]
  · intro m sl hm hsl hlive hz hup
    have hslot := h.slot m sl hm hsl hlive
    have hkeep := h'.uptodate m sl hm hsl hlive (by rw [hslot]; exact hz)
    rw [hslot] at hkeep
    exact hkeep (h.uptodate m sl hm hsl hlive hz hup)

/-- More slots are given up, none of which refers to a zone. -/
theorem ZoneInv.bury {dead' : Nat × Slot → Prop} (h : ZoneInv tight zoned dead s)
    (hclosed : ∀ n sl p, sl.Valid → p ∈ sl.above → dead' (n, p) → dead' (n, sl))
    (hdead : ∀ m sl, sl.Valid → s.slotZone m sl ≠ 0 → (dead' (m, sl) ↔ dead (m, sl))) :
    ZoneInv tight zoned dead' s := by
  refine ⟨h.sound, h.zero_bit, ?_, hclosed, h.unheld, h.coherent⟩
  refine h.owns.congr ?_ fun _ => Iff.rfl
  rintro ⟨m, sl⟩ z
  refine and_congr_right fun _ => and_congr_right fun hsl => ?_
  constructor
  · rintro ⟨hlive, rfl, hz⟩
    exact ⟨fun hd => hlive ((hdead m sl hsl hz).mpr hd), rfl, hz⟩
  · rintro ⟨hlive, rfl, hz⟩
    exact ⟨fun hd => hlive ((hdead m sl hsl hz).mp hd), rfl, hz⟩

/-- The zone of a live slot whose blocks behind it are given up already is freed. -/
theorem freeBlock_zones {sl₀ : Slot} (h : ZoneInv tight zoned dead s) (hn : zoned n)
    (hvalid : sl₀.Valid) (hlive : ¬ dead (n, sl₀)) (hz : s.slotZone n sl₀ ≠ 0)
    (hchildren : ∀ sl, sl.Valid → sl₀ ∈ sl.above → dead (n, sl))
    (hheld : s.held (s.slotZone n sl₀) = 0) :
    Post (s.freeBlock (s.slotZone n sl₀))
      (fun s' => ZoneInv tight zoned (fun r => dead r ∨ r = (n, sl₀)) s' ∧
        Trimmed zoned (fun r => dead r ∨ r = (n, sl₀)) s s')
      (fun _ => False) := by
  obtain ⟨z₀, hz₀⟩ : ∃ z, s.slotZone n sl₀ = z := ⟨_, rfl⟩
  have href : Refers zoned dead s (n, sl₀) z₀ := ⟨hn, hvalid, hlive, hz₀, by rw [← hz₀]; exact hz⟩
  have hused := h.owns.used_of_ref _ _ href
  rw [hz₀] at hheld ⊢
  refine (freeBlock_spec hused hheld).imp fun s' hfreed => ?_
  -- no other live slot holds the zone
  have hother : ∀ m sl, zoned m → sl.Valid → ¬ dead (m, sl) → (m, sl) ≠ (n, sl₀) →
      s.slotZone m sl ≠ z₀ := by
    intro m sl hm hsl hl hne heq
    exact hne (h.owns.inj _ _ _ ⟨hm, hsl, hl, heq, href.2.2.2.2⟩ href)
  have hslot : ∀ m sl, zoned m → sl.Valid → ¬ (dead (m, sl) ∨ (m, sl) = (n, sl₀)) →
      s'.slotZone m sl = s.slotZone m sl := by
    intro m sl hm hsl hl
    refine slotZone_congr (by rw [hfreed.inode]) fun p hp hpz => hfreed.contents _ ?_
    refine hother m p hm (Slot.above_valid hsl hp).1 (fun hd => ?_) fun heq => ?_
    · exact hl (Or.inl (h.closed m sl p hsl hp hd))
    · cases heq
      exact hl (Or.inl (hchildren sl hsl hp))
  have hdata : ∀ m sl, zoned m → sl.Valid → ¬ (dead (m, sl) ∨ (m, sl) = (n, sl₀)) →
      s.slotZone m sl ≠ z₀ :=
    fun m sl hm hsl hl => hother m sl hm hsl (fun hd => hl (Or.inl hd)) fun heq => hl (Or.inr heq)
  constructor
  · refine ⟨by rw [hfreed.super]; exact h.sound, ?_, ?_, ?_, ?_, hfreed.coherent h.coherent⟩
    · have h1 := hused.1
      have h2 := h.sound.first_pos
      rw [hfreed.zmap, Function.update_of_ne (by omega)]
      exact h.zero_bit
    · refine h.owns.take href (fun z hr => hr.2.2.2.1.symm.trans hz₀) ?_ (hfreed.used h.sound hused)
      rintro ⟨m, sl⟩ z
      constructor
      · rintro ⟨hm, hsl, hl, heq, hne⟩
        rw [hslot m sl hm hsl hl] at heq
        exact ⟨⟨hm, hsl, fun hd => hl (Or.inl hd), heq, hne⟩, fun heq => hl (Or.inr heq)⟩
      · rintro ⟨⟨hm, hsl, hl, heq, hne⟩, hself⟩
        have hl' : ¬ (dead (m, sl) ∨ (m, sl) = (n, sl₀)) := fun hd => hd.elim hl hself
        exact ⟨hm, hsl, hl', (hslot m sl hm hsl hl').trans heq, hne⟩
    · rintro m sl p hsl hp (hd | heq)
      · exact Or.inl (h.closed m sl p hsl hp hd)
      · cases heq
        exact Or.inl (hchildren sl hsl hp)
    · intro z h1 h2 h3
      rw [hfreed.super] at h1 h2
      rw [hfreed.held]
      by_cases heq : z = z₀
      · rw [heq]
        exact hheld
      · exact h.unheld z h1 h2 fun hu => h3 ((hfreed.used h.sound hused z).mpr ⟨hu, heq⟩)
  · refine ⟨hslot, ?_, ?_, hfreed.held, hfreed.works, hfreed.super, hfreed.imap, hfreed.inode⟩
    · exact fun m sl hm hsl hl _ => hfreed.contents _ (hdata m sl hm hsl hl)
    · exact fun m sl hm hsl hl _ hup => hfreed.uptodate _ (hdata m sl hm hsl hl) hup

/-- Slot `sl` of inode `n` holds a zone, and nothing behind it has been freed. -/
structure Whole (tight : Prop) (zoned : Nat → Prop) (dead : Nat × Slot → Prop) (s : Dev) (n : Nat)
    (sl : Slot) : Prop where
  inv : ZoneInv tight zoned dead s
  zoned : zoned n
  valid : sl.Valid
  full : s.slotZone n sl ≠ 0
  live : ∀ sl', sl'.Valid → sl' = sl ∨ sl ∈ sl'.above → ¬ dead (n, sl')
  works : ∀ b, s.cache.works b = true

/-- Nobody has a buffer of a zone behind the slot, either. -/
structure Freeable (tight : Prop) (zoned : Nat → Prop) (dead : Nat × Slot → Prop) (s : Dev) (n : Nat)
    (sl : Slot) : Prop extends Whole tight zoned dead s n sl where
  held : ∀ sl', sl'.Valid → sl' = sl ∨ sl ∈ sl'.above → s.slotZone n sl' ≠ 0 →
    s.held (s.slotZone n sl') = 0

/-- `free` frees the zone of slot `sl` and everything behind it. -/
def Frees (tight : Prop) (zoned : Nat → Prop) (n : Nat) (sl : Slot)
    (free : Nat → Dev → Except Panic Dev) : Prop :=
  ∀ dead s, Freeable tight zoned dead s n sl →
    Post (free (s.slotZone n sl) s)
      (fun s' => ZoneInv tight zoned (fun r => dead r ∨ Below n sl r) s' ∧
        Trimmed zoned (fun r => dead r ∨ Below n sl r) s s')
      (fun _ => False)

theorem frees_block {sl : Slot} (hdata : ∀ sl' : Slot, sl ∉ sl'.above) :
    Frees tight zoned n sl fun z s => s.freeBlock z := by
  intro dead s hf
  have hself := hf.live sl hf.valid (Or.inl rfl)
  have hbelow : (fun r => dead r ∨ Below n sl r) = fun r => dead r ∨ r = (n, sl) := by
    funext r
    refine propext (or_congr_right ⟨?_, ?_⟩)
    · rintro ⟨h1, h2 | h2⟩
      · exact Prod.ext h1 h2
      · exact absurd h2 (hdata r.2)
    · rintro rfl
      exact ⟨rfl, Or.inl rfl⟩
  rw [hbelow]
  exact freeBlock_zones hf.inv hf.zoned hf.valid hself hf.full (fun sl' _ hmem => absurd hmem (hdata sl'))
    (hf.held sl hf.valid (Or.inl rfl) hf.full)

/-- The slots given up when the entries before `j` of an index block are freed. -/
def Done (dead : Nat × Slot → Prop) (n : Nat) (p : Slot) (j : Nat) (r : Nat × Slot) : Prop :=
  dead r ∨ ∃ k < j, Below n (p.child k) r

theorem done_succ {p : Slot} {j : Nat} (r : Nat × Slot) :
    Done dead n p (j + 1) r ↔ Done dead n p j r ∨ Below n (p.child j) r := by
  unfold Done
  constructor
  · rintro (hd | ⟨k, hk, hb⟩)
    · exact Or.inl (Or.inl hd)
    · rcases Nat.lt_succ_iff_lt_or_eq.mp hk with hlt | rfl
      · exact Or.inl (Or.inr ⟨k, hlt, hb⟩)
      · exact Or.inr hb
  · rintro ((hd | ⟨k, hk, hb⟩) | hb)
    · exact Or.inl hd
    · exact Or.inr ⟨k, Nat.lt_succ_of_lt hk, hb⟩
    · exact Or.inr ⟨j, Nat.lt_succ_self j, hb⟩

theorem done_closed {p : Slot} {j : Nat}
    (hclosed : ∀ n sl p, sl.Valid → p ∈ sl.above → dead (n, p) → dead (n, sl)) :
    ∀ m sl q, sl.Valid → q ∈ sl.above → Done dead n p j (m, q) → Done dead n p j (m, sl) := by
  rintro m sl q hsl hq (hd | ⟨k, hk, hm, hb⟩)
  · exact Or.inl (hclosed m sl q hsl hq hd)
  · refine Or.inr ⟨k, hk, hm, Or.inr ?_⟩
    rcases hb with rfl | hb
    · exact hq
    · exact Slot.above_trans hb hq

/-- The slot of an index block is not behind one of its entries. -/
theorem Whole.self_live {p : Slot} {j : Nat} (hf : Whole tight zoned dead s n p) (hp : p.Index) (hj : j ≤ 512) :
    ¬ Done dead n p j (n, p) := by
  rintro (hd | ⟨k, hk, -, hb⟩)
  · exact hf.live p hf.valid (Or.inl rfl) hd
  · have hmem := (Slot.child_valid hp hf.valid (Nat.lt_of_lt_of_le hk hj)).2
    rcases hb with heq | hb
    · rw [← heq] at hmem
      exact Slot.not_above_self p hmem
    · exact Slot.not_above_self p (Slot.above_trans hmem hb)

/-- What holds of an index block that can be freed, after the entries before `j` have been. -/
structure Freeing (tight : Prop) (zoned : Nat → Prop) (dead : Nat × Slot → Prop) (n : Nat) (p : Slot)
    (s : Dev) (j : Nat) (s' : Dev) : Prop where
  inv : ZoneInv tight zoned (Done dead n p j) s'
  trimmed : Trimmed zoned (Done dead n p j) s s'

/-- The entry `j` of an index block is freed. -/
theorem Freeing.step {p : Slot} {j : Nat} {free : Nat → Dev → Except Panic Dev}
    (hf : Whole tight zoned dead s n p) (hp : p.Index)
    (hchild : Frees tight zoned n (p.child j) free) (hj : j < 512)
    (hup : (s.cache.head (s.slotZone n p)).uptodate = true)
    (hapart : ∀ sl, sl.Valid → p ∈ sl.above → s.slotZone n sl ≠ 0 → s.held (s.slotZone n sl) = 0)
    (h : Freeing tight zoned dead n p s j s') :
    Post (if s'.entry (s.slotZone n p) j = 0 then .ok s' else free (s'.entry (s.slotZone n p) j) s')
      (Freeing tight zoned dead n p s (j + 1)) (fun _ => False) := by
  have hdone : (fun r => Done dead n p j r ∨ Below n (p.child j) r) = Done dead n p (j + 1) :=
    funext fun r => propext (done_succ r).symm
  obtain ⟨hvalid, habove⟩ := Slot.child_valid hp hf.valid hj
  -- the index block itself and what lies behind the entry are live
  have hplive : ¬ Done dead n p j (n, p) := hf.self_live hp (Nat.le_of_lt hj)
  have hlive : ∀ sl, sl.Valid → sl = p.child j ∨ p.child j ∈ sl.above →
      ¬ Done dead n p j (n, sl) := by
    rintro sl hsl hb (hd | ⟨k, hk, -, hb'⟩)
    · refine hf.live sl hsl (Or.inr ?_) hd
      rcases hb with rfl | hb
      · exact habove
      · exact Slot.above_trans habove hb
    · exact Slot.child_apart hp (Nat.ne_of_lt hk) hb' hb
  have hentry : s'.entry (s.slotZone n p) j = s'.slotZone n (p.child j) := by
    have hup' := h.trimmed.uptodate n p hf.zoned hf.valid hplive hf.full hup
    rw [entry_eq j hup', slotZone_child hp hf.valid, h.trimmed.slot n p hf.zoned hf.valid hplive,
      entryOf, if_neg hf.full]
  rw [hentry]
  split
  · next hzero =>
    have hbury : ZoneInv tight zoned (Done dead n p (j + 1)) s' := by
      refine h.inv.bury (done_closed hf.inv.closed) fun m sl hsl hz => ?_
      rw [done_succ]
      refine or_iff_left ?_
      rintro ⟨rfl, heq | hb⟩
      · cases heq
        exact hz hzero
      · exact hz (slotZone_below hb hzero)
    exact Post.ret ⟨hbury, h.trimmed.mono fun r hd => (done_succ r).mpr (Or.inl hd)⟩
  · next hfull =>
    have hfree : Freeable tight zoned (Done dead n p j) s' n (p.child j) := by
      refine ⟨⟨h.inv, hf.zoned, hvalid, hfull, hlive, fun b => ?_⟩, fun sl hsl hb hz => ?_⟩
      · rw [h.trimmed.works]
        exact hf.works b
      · have hslot := h.trimmed.slot n sl hf.zoned hsl (hlive sl hsl hb)
        rw [hslot] at hz ⊢
        rw [h.trimmed.held]
        refine hapart sl hsl ?_ hz
        rcases hb with rfl | hb
        · exact habove
        · exact Slot.above_trans habove hb
    refine (hchild _ _ hfree).imp fun s'' hs'' => ?_
    rw [hdone] at hs''
    exact ⟨hs''.1, (h.trimmed.mono fun r hd => (done_succ r).mpr (Or.inl hd)).trans hs''.2⟩

/-- Buffers are taken and given back before and after, with the same counts in the end. -/
theorem Trimmed.between {s₁ s₂ : Dev} (hbefore : Same s s₁) (h : Trimmed zoned dead s₁ s₂) (hafter : Same s₂ s')
    (hheld : s'.held = s.held) : Trimmed zoned dead s s' := by
  have hsuper : s'.super = s.super := hafter.super.trans (h.super.trans hbefore.super)
  have hworks : s'.cache.works = s.cache.works := hafter.cache.works.trans (h.works.trans hbefore.cache.works)
  refine ⟨?_, ?_, ?_, hheld, hworks, hsuper, hafter.imap.trans (h.imap.trans hbefore.imap),
    hafter.inode.trans (h.inode.trans hbefore.inode)⟩
  · intro m sl hm hsl hlive
    rw [hafter.slotZone, h.slot m sl hm hsl hlive, hbefore.slotZone]
  · intro m sl hm hsl hlive hz
    have hdata := h.data m sl hm hsl hlive (by rw [hbefore.slotZone]; exact hz)
    rw [hbefore.slotZone] at hdata
    rw [hafter.contents, hdata, hbefore.contents]
  · intro m sl hm hsl hlive hz hup
    have hkeep := h.uptodate m sl hm hsl hlive (by rw [hbefore.slotZone]; exact hz)
    rw [hbefore.slotZone] at hkeep
    exact hafter.cache.uptodate _ (hkeep (hbefore.cache.uptodate _ hup))

theorem done_zero {p : Slot} : Done dead n p 0 = dead := by
  funext r
  refine propext ⟨fun h => ?_, Or.inl⟩
  rcases h with hd | ⟨k, hk, -⟩
  · exact hd
  · exact absurd hk (Nat.not_lt_zero k)

/-- All entries of an index block are freed. -/
theorem freeEntries_spec {p : Slot} {free : Nat → Dev → Except Panic Dev} (hf : Freeable tight zoned dead s n p)
    (hp : p.Index) (hchild : ∀ k < 512, Frees tight zoned n (p.child k) free) :
    Post (s.freeEntries free (s.slotZone n p)) (Freeing tight zoned dead n p s 512) (fun _ => False) := by
  obtain ⟨b, hb⟩ : ∃ b, s.slotZone n p = b := ⟨_, rfl⟩
  have href : Refers zoned dead s (n, p) b :=
    ⟨hf.zoned, hf.valid, hf.live p hf.valid (Or.inl rfl), hb, by rw [← hb]; exact hf.full⟩
  have hused := hf.inv.owns.used_of_ref _ _ href
  have hzero : s.held b = 0 := by
    rw [← hb]
    exact hf.held p hf.valid (Or.inl rfl) hf.full
  rw [hb]
  unfold Dev.freeEntries
  refine Post.bind (bread_spec b s) ?_
  rintro ⟨got, s₁⟩ ⟨hsame, ⟨rfl, hup, hheld⟩ | ⟨-, hbad, -⟩⟩
  · have hb₁ : s₁.slotZone n p = b := by rw [hsame.slotZone, hb]
    have hwhole : Whole tight zoned dead s₁ n p := by
      refine ⟨hf.inv.same hsame fun z hz hold => ?_, hf.zoned, hf.valid, ?_, hf.live, fun c => ?_⟩
      · rw [hheld]
        exact held_used hused hz hold
      · rw [hsame.slotZone]
        exact hf.full
      · rw [hsame.cache.works]
        exact hf.works c
    -- nobody has the zones behind the block, only the block itself is held now
    have hapart : ∀ sl, sl.Valid → p ∈ sl.above → s₁.slotZone n sl ≠ 0 → s₁.held (s₁.slotZone n sl) = 0 := by
      intro sl hsl hmem hz
      rw [hsame.slotZone] at hz ⊢
      have hne : s.slotZone n sl ≠ b := by
        intro heq
        have hsl' : Refers zoned dead s (n, sl) b := ⟨hf.zoned, hsl, hf.live sl hsl (Or.inr hmem), heq, heq ▸ hz⟩
        cases hf.inv.owns.inj _ _ _ hsl' href
        exact Slot.not_above_self p hmem
      rw [hheld, Function.update_of_ne hne]
      exact hf.held sl hsl (Or.inr hmem) hz
    have hstart : Freeing tight zoned dead n p s₁ 0 s₁ := by
      refine ⟨?_, ⟨fun _ _ _ _ _ => rfl, fun _ _ _ _ _ _ => rfl, fun _ _ _ _ _ _ => id, rfl, rfl, rfl, rfl, rfl⟩⟩
      rw [done_zero]
      exact hwhole.inv
    have hloop : Post ((List.range 512).foldlM
        (fun s k => if s.entry b k = 0 then .ok s else free (s.entry b k) s) s₁)
        (Freeing tight zoned dead n p s₁ 512) (fun _ => False) := by
      refine Post.foldlM_range 512 (fun k hk s₂ h₂ => ?_) hstart
      rw [← hb₁] at hup ⊢
      exact h₂.step hwhole hp (hchild k hk) hk hup hapart
    simp only [if_true]
    refine Post.bind hloop fun s₂ h₂ => ?_
    have hone : s₂.held b = 0 + 1 := by rw [h₂.trimmed.held, hheld, Function.update_self, hzero]
    refine (brelse_spec hone).imp ?_
    rintro s₃ ⟨hsame₃, hheld₃⟩
    have hback : s₃.held = s.held := by
      rw [hheld₃, h₂.trimmed.held, hheld, Function.update_idem, ← hzero, Function.update_eq_self]
    have hused₂ : s₂.Used b := by
      have hlive := hf.self_live hp (le_refl 512)
      refine h₂.inv.owns.used_of_ref (n, p) b ⟨hf.zoned, hf.valid, hlive, ?_, href.2.2.2.2⟩
      rw [h₂.trimmed.slot n p hf.zoned hf.valid hlive, hb₁]
    refine ⟨h₂.inv.same hsame₃ fun z hz hold => ?_, Trimmed.between hsame h₂.trimmed hsame₃ hback⟩
    rw [hheld₃]
    exact held_used hused₂ hz hold
  · exact absurd (Or.inr (hf.works b)) hbad

/-- An index block is freed after its entries. -/
theorem frees_index {p : Slot} {free : Nat → Dev → Except Panic Dev} (hp : p.Index)
    (hchild : ∀ k < 512, Frees tight zoned n (p.child k) free) :
    Frees tight zoned n p fun b s => s.freeIndex free b := by
  intro dead s hf
  unfold Dev.freeIndex
  dsimp only
  rw [if_neg hf.full]
  refine Post.bind (freeEntries_spec hf hp hchild) fun s₁ h₁ => ?_
  have hlive := hf.self_live hp (le_refl 512)
  have hslot := h₁.trimmed.slot n p hf.zoned hf.valid hlive
  have hchildren : ∀ sl, sl.Valid → p ∈ sl.above → Done dead n p 512 (n, sl) := by
    intro sl hsl hmem
    obtain ⟨k, hk, hb⟩ := Slot.above_child hsl hmem
    exact Or.inr ⟨k, hk, rfl, hb⟩
  -- behind the block lie its entries and what is behind them
  have hsub : ∀ r, Done dead n p 512 r ∨ r = (n, p) → dead r ∨ Below n p r := by
    rintro r ((hd | ⟨k, hk, hm, hb⟩) | rfl)
    · exact Or.inl hd
    · have hmem := (Slot.child_valid hp hf.valid hk).2
      refine Or.inr ⟨hm, Or.inr ?_⟩
      rcases hb with hb | hb
      · rw [hb]
        exact hmem
      · exact Slot.above_trans hmem hb
    · exact Or.inr ⟨rfl, Or.inl rfl⟩
  have hzero : s₁.held (s₁.slotZone n p) = 0 := by
    rw [hslot, h₁.trimmed.held]
    exact hf.held p hf.valid (Or.inl rfl) hf.full
  rw [← hslot]
  refine (freeBlock_zones h₁.inv hf.zoned hf.valid hlive (by rw [hslot]; exact hf.full) hchildren hzero).imp ?_
  rintro s' ⟨hinv, htrim⟩
  refine ⟨hinv.bury (closed_below hf.inv.closed) fun m sl hsl _ => ⟨fun hd => ?_, hsub (m, sl)⟩, ?_⟩
  · rcases hd with hd | ⟨hm, hb⟩
    · exact Or.inl (Or.inl hd)
    · cases hm
      rcases hb with rfl | hb
      · exact Or.inr rfl
      · exact Or.inl (hchildren sl hsl hb)
  · exact (h₁.trimmed.mono fun r hd => hsub r (Or.inl hd)).trans (htrim.mono hsub)

/-! ## truncate -/

theorem Dev.setInode_self {i : Inode} : (s.setInode n i).inode n = i := Function.update_self ..

theorem Dev.setInode_ne {i : Inode} {m : Nat} (hm : m ≠ n) : (s.setInode n i).inode m = s.inode m :=
  Function.update_of_ne hm ..

theorem Dev.setZone_self {k z : Nat} :
    (s.setZone n k z).inode n = { s.inode n with iZone := Function.update (s.inode n).iZone k z } :=
  Function.update_self ..

theorem Dev.setZone_ne {k z m : Nat} (hm : m ≠ n) : (s.setZone n k z).inode m = s.inode m :=
  Function.update_of_ne hm ..

theorem Dev.slotZone_of_numbers (hnum : ∀ k < 9, (s.inode n).iZone k = 0) {sl : Slot} (hsl : sl.Valid) :
    s.slotZone n sl = 0 := by
  cases sl with
  | zone k => exact hnum k hsl
  | ind k => exact slotZone_below (List.mem_singleton.mpr rfl) (hnum 7 (by decide))
  | dind k => exact slotZone_below (List.mem_singleton.mpr rfl) (hnum 8 (by decide))
  | leaf k l => exact slotZone_below List.mem_cons_self (hnum 8 (by decide))

/-- A number in the inode is read through the slots behind it only. -/
theorem slotZone_setZone {i z m : Nat} {sl : Slot} (hb : ¬ Below n (.zone i) (m, sl)) :
    (s.setZone n i z).slotZone m sl = s.slotZone m sl := by
  by_cases hm : m = n
  · subst hm
    have hzone : ∀ j, j ≠ i → ((s.setZone m i z).inode m).iZone j = (s.inode m).iZone j := by
      intro j hj
      show (Function.update s.inode m _ m).iZone j = _
      rw [Function.update_self]
      exact Function.update_of_ne hj ..
    have hne : ∀ j, (Slot.zone j = sl ∨ Slot.zone j ∈ sl.above) → j ≠ i := by
      rintro j hj rfl
      exact hb ⟨rfl, hj.imp_left Eq.symm⟩
    cases sl with
    | zone j => exact hzone j (hne j (.inl rfl))
    | ind k => exact congrArg (s.entryOf · k) (hzone 7 (hne 7 (.inr (List.mem_singleton.mpr rfl))))
    | dind k => exact congrArg (s.entryOf · k) (hzone 8 (hne 8 (.inr (List.mem_singleton.mpr rfl))))
    | leaf k l =>
      exact congrArg (fun b => s.entryOf (s.entryOf b k) l) (hzone 8 (hne 8 (.inr List.mem_cons_self)))
  · refine slotZone_congr ?_ fun _ _ _ => rfl
    show (Function.update s.inode n _ m).iZone = _
    rw [Function.update_of_ne hm]

theorem slotZone_cleared {i : Nat} {sl : Slot} (hb : sl = .zone i ∨ .zone i ∈ sl.above) :
    (s.setZone n i 0).slotZone n sl = 0 := by
  have hself : (s.setZone n i 0).slotZone n (.zone i) = 0 := by
    show (Function.update s.inode n _ n).iZone i = 0
    rw [Function.update_self]
    exact Function.update_self ..
  rcases hb with rfl | hb
  · exact hself
  · exact slotZone_below hb hself

/-- The number of a zone that has been freed, with everything behind it, is forgotten. -/
theorem ZoneInv.clear {i : Nat} (h : ZoneInv tight zoned (fun r => dead r ∨ Below n (.zone i) r) s)
    (hclosed : ∀ n sl p, sl.Valid → p ∈ sl.above → dead (n, p) → dead (n, sl)) :
    ZoneInv tight zoned dead (s.setZone n i 0) := by
  refine ⟨h.sound, h.zero_bit, ?_, hclosed, h.unheld, h.coherent⟩
  refine h.owns.congr ?_ fun _ => Iff.rfl
  rintro ⟨m, sl⟩ z
  refine and_congr_right fun _ => and_congr_right fun _ => ?_
  by_cases hb : Below n (.zone i) (m, sl)
  · obtain ⟨rfl, hsl⟩ := hb
    refine iff_of_false ?_ fun hr => hr.1 (Or.inr ⟨rfl, hsl⟩)
    rintro ⟨-, heq, hz⟩
    rw [slotZone_cleared hsl] at heq
    exact hz heq.symm
  · rw [slotZone_setZone hb]
    exact and_congr_left fun _ => not_congr (or_iff_left hb).symm

/-- An index block, if there is one, is freed with everything behind it. -/
theorem freeIndex_zones {p : Slot} {free : Nat → Dev → Except Panic Dev}
    (hfrees : Frees tight zoned n p fun b s => s.freeIndex free b) (h : ZoneInv tight zoned dead s)
    (hn : zoned n) (hvalid : p.Valid) (hlive : ∀ sl, sl.Valid → sl = p ∨ p ∈ sl.above → ¬ dead (n, sl))
    (hworks : ∀ b, s.cache.works b = true) (hheld : ∀ b, s.held b = 0) :
    Post (s.freeIndex free (s.slotZone n p))
      (fun s' => ZoneInv tight zoned (fun r => dead r ∨ Below n p r) s' ∧
        Trimmed zoned (fun r => dead r ∨ Below n p r) s s')
      (fun _ => False) := by
  by_cases hz : s.slotZone n p = 0
  · unfold Dev.freeIndex
    rw [if_pos hz]
    refine Post.ret ⟨h.bury (closed_below h.closed) fun m sl hsl hne => or_iff_left ?_, ?_⟩
    · rintro ⟨hm, hb⟩
      cases hm
      rcases hb with rfl | hb
      · exact hne hz
      · exact hne (slotZone_below hb hz)
    · exact ⟨fun _ _ _ _ _ => rfl, fun _ _ _ _ _ _ => rfl, fun _ _ _ _ _ _ => id, rfl, rfl, rfl, rfl, rfl⟩
  · exact hfrees dead s ⟨⟨h, hn, hvalid, hz, hlive, hworks⟩, fun sl _ _ _ => hheld _⟩

/-- How far `truncate` has come: the zones before `j` are given back. -/
structure Truncating (tight : Prop) (zoned : Nat → Prop) (n : Nat) (s : Dev) (j : Nat) (s' : Dev) : Prop where
  inv : ZoneInv tight zoned noDead s'
  held : s'.held = s.held
  works : s'.cache.works = s.cache.works
  super : s'.super = s.super
  imap : s'.imap = s.imap
  inode_ne : ∀ m ≠ n, s'.inode m = s.inode m
  inode_self : ∃ zone, s'.inode n = { s.inode n with iZone := zone } ∧ ∀ k < j, zone k = 0

theorem below_direct {k : Nat} (hk : k < 7) (r : Nat × Slot) : Below n (.zone k) r ↔ r = (n, .zone k) := by
  obtain ⟨m, sl⟩ := r
  have habove : Slot.zone k ∉ sl.above := by
    cases sl <;> simp [Slot.above] <;> omega
  simp [Below, habove]

/-- The loop over the direct zones. -/
theorem Truncating.step {k : Nat} (h : Truncating tight zoned n s k s') (hn : zoned n) (hk : k < 7)
    (hheld : ∀ b, s.held b = 0) :
    Post (s'.freeDirect n k) (Truncating tight zoned n s (k + 1)) (fun _ => False) := by
  obtain ⟨zone, hself, hzero⟩ := h.inode_self
  unfold Dev.freeDirect
  split
  · next hz =>
    refine Post.ret ⟨h.inv, h.held, h.works, h.super, h.imap, h.inode_ne, zone, hself, fun j hj => ?_⟩
    rcases Nat.lt_succ_iff_lt_or_eq.mp hj with hlt | rfl
    · exact hzero j hlt
    · rw [hself] at hz
      exact hz
  · next hz =>
    have hvalid : Slot.Valid (.zone k) := Nat.lt_trans hk (by decide)
    have hchildren : ∀ sl : Slot, sl.Valid → Slot.zone k ∈ sl.above → noDead (n, sl) := by
      intro sl _ hmem
      cases sl <;> simp [Slot.above] at hmem <;> omega
    have hfree := freeBlock_zones h.inv hn hvalid id hz hchildren (by rw [h.held]; exact hheld _)
    refine Post.bind hfree fun s₁ h₁ => Post.ret ?_
    obtain ⟨hinv, htrim⟩ := h₁
    have hdead : (fun r => noDead r ∨ r = (n, Slot.zone k)) = fun r => noDead r ∨ Below n (.zone k) r :=
      funext fun r => propext (or_congr_right (below_direct hk r).symm)
    rw [hdead] at hinv
    refine ⟨hinv.clear fun _ _ _ _ _ => id, htrim.held.trans h.held, htrim.works.trans h.works,
      htrim.super.trans h.super, htrim.imap.trans h.imap, fun m hm => ?_, Function.update zone k 0, ?_, fun j hj => ?_⟩
    · show Function.update s₁.inode n _ m = _
      rw [Function.update_of_ne hm, htrim.inode, h.inode_ne m hm]
    · show Function.update s₁.inode n _ n = _
      rw [Function.update_self, htrim.inode, hself]
    · by_cases hjk : j = k
      · rw [hjk, Function.update_self]
      · rw [Function.update_of_ne hjk]
        exact hzero j (by omega)

theorem frees_ind : Frees tight zoned n (.zone 7) fun b s => s.freeInd b :=
  frees_index (le_refl 7) fun k _ => frees_block fun sl => by
    cases sl <;> simp [Slot.child, Slot.above]

theorem frees_dind : Frees tight zoned n (.zone 8) fun b s => s.freeDind b :=
  frees_index (by show 7 ≤ 8; decide) fun k _ => frees_index trivial fun l _ => frees_block fun sl => by
    cases sl <;> simp [Slot.child, Slot.above]

/-- A file is truncated: its zones are given back, and nothing else changes. -/
theorem truncate_zones (h : ZoneInv tight zoned noDead s) (hn : zoned n)
    (hfile : isReg (s.inode n).iMode = true ∨ isDir (s.inode n).iMode = true)
    (hworks : ∀ b, s.cache.works b = true) (hheld : ∀ b, s.held b = 0) :
    Post (s.truncate n)
      (fun s' => ZoneInv tight zoned noDead s' ∧ (∀ sl, sl.Valid → s'.slotZone n sl = 0) ∧ s'.held = s.held ∧
        s'.cache.works = s.cache.works ∧ s'.super = s.super ∧ (∀ m ≠ n, s'.inode m = s.inode m) ∧
        ∃ zone, s'.inode n = { s.inode n with iZone := zone, iSize := 0 })
      (fun _ => False) := by
  unfold Dev.truncate
  rw [if_neg (by rcases hfile with hreg | hdir <;> simp [*])]
  have hstart : Truncating tight zoned n s 0 s :=
    ⟨h, rfl, rfl, rfl, rfl, fun _ _ => rfl, (s.inode n).iZone, rfl, fun k hk => absurd hk (Nat.not_lt_zero k)⟩
  refine Post.bind (Post.foldlM_range 7 (fun k hk s₁ h₁ => h₁.step hn hk hheld) hstart) fun s₁ h₁ => ?_
  obtain ⟨zone, hself, hzero⟩ := h₁.inode_self
  have hworks₁ : ∀ b, s₁.cache.works b = true := fun b => by rw [h₁.works]; exact hworks b
  have hheld₁ : ∀ b, s₁.held b = 0 := fun b => by rw [h₁.held]; exact hheld b
  refine Post.bind (freeIndex_zones frees_ind h₁.inv hn (by show 7 < 9; decide) (fun _ _ _ => id) hworks₁ hheld₁) ?_
  rintro s₂ ⟨hinv₂, htrim₂⟩
  have happart : ∀ sl : Slot, sl.Valid → sl = .zone 8 ∨ .zone 8 ∈ sl.above →
      ¬ (noDead (n, sl) ∨ Below n (.zone 7) (n, sl)) := by
    rintro sl - hsl (hd | ⟨-, hb⟩)
    · exact hd
    · cases sl <;> simp_all [Slot.above]
  have hworks₂ : ∀ b, s₂.cache.works b = true := fun b => by rw [htrim₂.works]; exact hworks₁ b
  have hheld₂ : ∀ b, s₂.held b = 0 := fun b => by rw [htrim₂.held]; exact hheld₁ b
  refine Post.bind (freeIndex_zones frees_dind hinv₂ hn (by show 8 < 9; decide) happart hworks₂ hheld₂) ?_
  rintro s₃ ⟨hinv₃, htrim₃⟩
  have hdead : (fun r => (noDead r ∨ Below n (.zone 7) r) ∨ Below n (.zone 8) r) =
      fun r => (noDead r ∨ Below n (.zone 8) r) ∨ Below n (.zone 7) r :=
    funext fun r => propext or_right_comm
  rw [hdead] at hinv₃
  have hinv₄ := (hinv₃.clear (closed_below fun _ _ _ _ _ => id)).clear fun _ _ _ _ _ => id
  have hinode₃ : s₃.inode = s₁.inode := htrim₃.inode.trans htrim₂.inode
  -- all numbers in the inode are 0 now
  let zone' := Function.update (Function.update zone 7 0) 8 0
  have hself' : ((s₃.setZone n 7 0).setZone n 8 0).inode n = { s.inode n with iZone := zone' } := by
    rw [setZone_self, setZone_self, hinode₃, hself]
  have hzero' : ∀ k < 9, zone' k = 0 := by
    intro k hk
    show Function.update (Function.update zone 7 0) 8 0 k = 0
    grind
  refine Post.ret ⟨hinv₄.apart rfl rfl rfl fun m _ => ?_, fun sl hsl => ?_, ?_, ?_, ?_, fun m hm => ?_, zone', ?_⟩
  · by_cases hm : m = n
    · rw [hm, setInode_self]
    · rw [setInode_ne hm]
  · refine slotZone_of_numbers (fun k hk => ?_) hsl
    rw [setInode_self, hself']
    exact hzero' k hk
  · exact htrim₃.held.trans (htrim₂.held.trans h₁.held)
  · exact htrim₃.works.trans (htrim₂.works.trans h₁.works)
  · exact htrim₃.super.trans (htrim₂.super.trans h₁.super)
  · rw [setInode_ne hm, setZone_ne hm, setZone_ne hm, hinode₃, h₁.inode_ne m hm]
  · rw [setInode_self, hself']

/-! ## iput -/

/-- The numbers in a regular file or a directory are those of zones. -/
def Dev.Filed (s : Dev) (n : Nat) : Prop := isReg (s.inode n).iMode = true ∨ isDir (s.inode n).iMode = true

/-- The zones are in order, all blocks can be read, and no buffer is in use. -/
structure Dev.InOrder (s : Dev) : Prop where
  zones : ZoneInv True s.Filed noDead s
  works : ∀ b, s.cache.works b = true
  unheld : ∀ b, s.held b = 0

/-- The panics that say that a bitmap is wrong. -/
def bitPanics : List Panic := ["new_block: bit already set", "free_block: bit already cleared"]

/-- An inode without zones is left out. -/
theorem ZoneInv.leave (h : ZoneInv tight zoned noDead s)
    (hempty : zoned n → ∀ sl, sl.Valid → s.slotZone n sl = 0) :
    ZoneInv tight (fun m => zoned m ∧ m ≠ n) noDead s := by
  refine ⟨h.sound, h.zero_bit, h.owns.congr (fun r z => ?_) fun _ => Iff.rfl, h.closed, h.unheld, h.coherent⟩
  constructor
  · rintro ⟨⟨hm, -⟩, hrest⟩
    exact ⟨hm, hrest⟩
  · rintro ⟨hm, hvalid, hlive, heq, hz⟩
    refine ⟨⟨hm, ?_⟩, hvalid, hlive, heq, hz⟩
    rintro rfl
    rw [hempty hm r.2 hvalid] at heq
    exact hz heq.symm

theorem Dev.filed_congr (h : ∀ m, (s'.inode m).iMode = (s.inode m).iMode) : s'.Filed = s.Filed := by
  funext m
  rw [Dev.Filed, Dev.Filed, h]

/-- What is not the mode, nor the zones, of an inode is changed. -/
theorem Dev.InOrder.setInode {i : Inode} (h : s.InOrder) (hmode : i.iMode = (s.inode n).iMode)
    (hzone : i.iZone = (s.inode n).iZone) : (s.setInode n i).InOrder := by
  have hinode : ∀ m, ((s.setInode n i).inode m).iMode = (s.inode m).iMode ∧
      ((s.setInode n i).inode m).iZone = (s.inode m).iZone := by
    intro m
    by_cases hm : m = n
    · rw [hm, setInode_self]
      exact ⟨hmode, hzone⟩
    · rw [setInode_ne hm]
      exact ⟨rfl, rfl⟩
  have hfiled : (s.setInode n i).Filed = s.Filed := filed_congr fun m => (hinode m).1
  refine ⟨?_, h.works, h.unheld⟩
  rw [hfiled]
  exact h.zones.apart rfl rfl rfl fun m _ => (hinode m).2

/-- `truncate` of whatever inode. -/
theorem Dev.InOrder.truncate (h : s.InOrder) :
    Post (s.truncate n)
      (fun s' => s'.InOrder ∧ s'.Filed = s.Filed ∧ (s.Filed n → ∀ sl, sl.Valid → s'.slotZone n sl = 0))
      (fun _ => False) := by
  by_cases hn : s.Filed n
  · refine (truncate_zones h.zones hn hn h.works h.unheld).imp ?_
    rintro s' ⟨hinv, hempty, hheld, hworks, -, hother, zone, hself⟩
    have hfiled : s'.Filed = s.Filed := filed_congr fun m => by
      by_cases hm : m = n
      · rw [hm, hself]
      · rw [hother m hm]
    refine ⟨⟨by rw [hfiled]; exact hinv, fun b => ?_, fun b => ?_⟩, hfiled, fun _ => hempty⟩
    · rw [hworks]
      exact h.works b
    · rw [hheld]
      exact h.unheld b
  · unfold Dev.truncate
    rw [if_pos (by simpa [Dev.Filed] using hn)]
    exact Post.ret ⟨h, rfl, fun hn' => absurd hn' hn⟩

/-- The inode is given back when its zones have been. -/
theorem Dev.InOrder.freeInode (h : s.InOrder) (hempty : s.Filed n → ∀ sl, sl.Valid → s.slotZone n sl = 0) :
    Post (s.freeInode n) Dev.InOrder (· ∉ bitPanics) := by
  unfold Dev.freeInode
  split
  · exact Post.stop (by decide)
  · split
    · exact Post.stop (by decide)
    · split
      · exact Post.stop (by decide)
      · split
        · exact Post.stop (by decide)
        · refine Post.ret ⟨?_, h.works, h.unheld⟩
          have hfiled : Dev.Filed ({ s with imap := Function.update s.imap n false }.setInode n Inode.zero) =
              fun m => s.Filed m ∧ m ≠ n := by
            funext m
            by_cases hm : m = n
            · rw [Dev.Filed, hm, setInode_self]
              simp [Inode.zero, isReg, isDir]
            · rw [Dev.Filed, setInode_ne hm]
              simp [Dev.Filed, hm]
          rw [hfiled]
          exact (h.zones.leave hempty).apart rfl rfl rfl fun m hm => by rw [setInode_ne hm.2]

theorem Dev.InOrder.iput (h : s.InOrder) : Post (s.iput n) Dev.InOrder (· ∉ bitPanics) := by
  unfold Dev.iput
  split
  · exact Post.stop (by decide)
  · split
    · exact Post.ret (h.setInode rfl rfl)
    · split
      · refine Post.bind (h.truncate.mono (fun _ => id) fun _ => False.elim) ?_
        rintro s₁ ⟨h₁, hfiled, hempty⟩
        exact h₁.freeInode (by rw [hfiled]; exact hempty)
      · exact Post.ret (h.setInode rfl rfl)

/-! ## Runs -/

inductive ZoneOp where
  | createBlock (n block : Nat)
  | truncate (n : Nat)
  | iput (n : Nat)

namespace ZoneOp

def run : ZoneOp → Dev → Except Panic Dev
  | createBlock n block, s => (s.createBlock n block).map Prod.snd
  | truncate n, s => s.truncate n
  | iput n, s => s.iput n

/-- Blocks are created for regular files and directories. -/
def Allowed (s : Dev) : ZoneOp → Prop
  | createBlock n _ => s.Filed n
  | truncate _ | iput _ => True

end ZoneOp

/-- An operation, or something that happens to the buffers in between. -/
inductive ZoneStep (s : Dev) : Dev → Prop
  | op (o : ZoneOp) {s' : Dev} (hallowed : o.Allowed s) (hrun : o.run s = .ok s') : ZoneStep s s'
  | cache {c : Cache} (h : Cache.Background s.cache c) : ZoneStep s { s with cache := c }

/-- One operation. -/
theorem Dev.InOrder.run (h : s.InOrder) {o : ZoneOp} (hallowed : o.Allowed s) :
    Post (o.run s) Dev.InOrder (· ∉ bitPanics) := by
  cases o with
  | createBlock n block =>
    show Post ((s.createBlock n block).map Prod.snd) _ _
    by_cases hblock : block < maxBlocks
    · have hspec := createBlock_spec h.zones hallowed hblock
      cases hrun : s.createBlock n block with
      | error e => exact (hspec.of_error e hrun).elim
      | ok r =>
        obtain ⟨hinv, hgrown, hheld, -, -⟩ := hspec.of_ok r hrun
        have hfiled : r.2.Filed = s.Filed := filed_congr fun m => by
          by_cases hm : m = n
          · obtain ⟨zone, hself⟩ := hgrown.inode_self
            rw [hm, hself]
          · rw [hgrown.inode_ne m hm]
        refine Post.ret ⟨by rw [hfiled]; exact hinv, fun b => ?_, fun b => ?_⟩
        · rw [hgrown.works]
          exact h.works b
        · rw [hheld]
          exact h.unheld b
    · have hpanic : s.createBlock n block = .error "_bmap: block>big" := if_pos (Nat.le_of_not_lt hblock)
      rw [hpanic]
      exact Post.stop (by decide)
  | truncate n => exact h.truncate.mono (fun _ hr => hr.1) fun _ => False.elim
  | iput n => exact h.iput

theorem ZoneStep.inOrder (h : s.InOrder) (hstep : ZoneStep s s') : s'.InOrder := by
  cases hstep with
  | op o hallowed hrun => exact (h.run hallowed).of_ok s' hrun
  | @cache c hc =>
    have hquiet := hc.quiet h.zones.coherent
    refine ⟨h.zones.quiet hquiet, fun b => ?_, fun b => ?_⟩
    · exact (congrFun hquiet.works b).trans (h.works b)
    · exact (congrFun hquiet.held b).trans (h.unheld b)

/-- However blocks are created and files cut off, no bit is set or cleared that was so already. -/
theorem zones_in_order {s₀ s : Dev} (h₀ : s₀.InOrder) (hrun : Relation.ReflTransGen ZoneStep s₀ s) :
    s.InOrder ∧ ∀ o : ZoneOp, o.Allowed s → Post (o.run s) Dev.InOrder (· ∉ bitPanics) := by
  have h : s.InOrder := invariant_of_run (I := Dev.InOrder) (fun _ _ hs => ZoneStep.inOrder hs) h₀ hrun
  exact ⟨h, fun o hallowed => h.run hallowed⟩

/-- A file system of ninety zones with one file, still empty. -/
def emptyFile : Dev where
  cache := ⟨fun _ => none, fun _ _ => 0, fun _ => true, fun _ _ => 0⟩
  super := ⟨32, 100, 1, 1, 10⟩
  zmap := fun j => j == 0
  imap := fun j => j ≤ 1
  inode := fun n => if n = 1 then { Inode.zero with iMode := 0o100644, iNlinks := 1, iCount := 1 } else Inode.zero

theorem emptyFile_iZone (n i : Nat) : (emptyFile.inode n).iZone i = 0 := by
  show (if n = 1 then { Inode.zero with iMode := 0o100644, iNlinks := 1, iCount := 1 } else Inode.zero).iZone i = 0
  split <;> rfl

theorem emptyFile_slotZone (n : Nat) (sl : Slot) : emptyFile.slotZone n sl = 0 := by
  cases sl <;> simp [slotZone, entryOf, emptyFile_iZone]

theorem emptyFile_inOrder : emptyFile.InOrder := by
  have hfree : ∀ z, ¬ emptyFile.Used z := by
    rintro z ⟨hfirst, -, hbit⟩
    have hfirst : 10 ≤ z := hfirst
    have hbit : (z - 9 == 0) = true := hbit
    grind
  refine ⟨⟨?_, rfl, ⟨?_, ?_, ?_⟩, fun _ _ _ _ _ hd => hd, fun _ _ _ _ => rfl, ?_⟩, fun _ => rfl, fun _ => rfl⟩
  · constructor <;> decide
  · rintro r r' z ⟨-, -, -, hz, hne⟩
    exact absurd ((emptyFile_slotZone _ _).symm.trans hz).symm hne
  · rintro r z ⟨-, -, -, hz, hne⟩
    exact absurd ((emptyFile_slotZone _ _).symm.trans hz).symm hne
  · exact fun _ z hz => absurd hz (hfree z)
  · refine ⟨fun b hup => ?_, fun b hdirt => ?_⟩
    · cases hup
    · cases hdirt

theorem zones_in_order_empty_file :
    ∃ s, (ZoneOp.createBlock 1 7).run emptyFile = .ok s ∧ s.InOrder ∧
      Post ((ZoneOp.truncate 1).run s) Dev.InOrder (· ∉ bitPanics) := by
  cases hrun : (ZoneOp.createBlock 1 7).run emptyFile with
  | error e =>
    have hok : ((ZoneOp.createBlock 1 7).run emptyFile).toOption.isSome = true := by decide +kernel
    rw [hrun] at hok
    cases hok
  | ok s =>
    have hallowed : (ZoneOp.createBlock 1 7).Allowed emptyFile := Or.inl (by decide)
    have hstep : ZoneStep emptyFile s := ZoneStep.op _ hallowed hrun
    obtain ⟨h, hnext⟩ := zones_in_order emptyFile_inOrder (Relation.ReflTransGen.single hstep)
    exact ⟨s, rfl, h, hnext _ trivial⟩

end Linux011.Fs
