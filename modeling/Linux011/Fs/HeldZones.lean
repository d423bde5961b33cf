import Linux011.Fs.Truncate

/-!
# Zones that truncate leaves behind

`truncate` of a file while other processes have buffers of its blocks, or while some of its index blocks cannot be
read. `free_block` takes a reference to the buffer of the block; if it is not the only one, it returns, with the zone
still marked as used and the reference not given back. Behind an index block that cannot be read, `free_ind` and
`free_dind` pass over the entries. In both cases `truncate` clears the numbers in the inode all the same.

The blocks are seen as trees: a tree of depth `d` has an index block as its root, and trees of depth `d - 1` behind
the entries. `free_block`, `free_ind` and `free_dind` free the trees of depth 0, 1 and 2 (`freeTree`).
-/

namespace Linux011.Fs

open Linux011.Lib Dev

variable {s s' s'' : Dev} {n d b z : Nat} {gone gone' : Nat → Prop}

namespace Dev

/-! ## Trees of blocks -/

/-- `free_block`, `free_ind` and `free_dind` -/
def freeTree : Nat → Nat → Dev → Except Panic Dev
  | 0 => fun b s => s.freeBlock b
  | d + 1 => fun b s => s.freeIndex (freeTree d) b

/-- The zones of the tree with root `b`, as far as the index blocks on the way are in `R`. -/
def Reach (s : Dev) (R : Nat → Prop) : Nat → Nat → Nat → Prop
  | 0, b, z => z = b
  | d + 1, b, z => z = b ∨ R b ∧ ∃ k < 512, s.entryOf b k ≠ 0 ∧ s.Reach R d (s.entryOf b k) z

def Behind (s : Dev) : Nat → Nat → Nat → Prop := s.Reach fun _ => True

/-- The zones of the tree for which `free_block` is called. -/
def Met (s : Dev) : Nat → Nat → Nat → Prop := s.Reach s.Readable

/-- The trees of depth `d k` with the roots `r k` have no zone in common. -/
def Apart (s : Dev) (m : Nat) (d r : Nat → Nat) : Prop :=
  ∀ k < m, ∀ l < m, k ≠ l → r k ≠ 0 → r l ≠ 0 → ∀ z, s.Behind (d k) (r k) z → ¬ s.Behind (d l) (r l) z

/-- All zones of the tree are used, and each has one place in it. -/
def Grove (s : Dev) : Nat → Nat → Prop
  | 0, b => s.Used b
  | d + 1, b => s.Used b ∧
      (∀ k < 512, s.entryOf b k ≠ 0 → s.Grove d (s.entryOf b k) ∧ ¬ s.Behind d (s.entryOf b k) b) ∧
      s.Apart 512 (fun _ => d) (s.entryOf b)

theorem Behind.root : s.Behind d b b := by
  cases d with
  | zero => rfl
  | succ d => exact Or.inl rfl

theorem Behind.entry {k : Nat} (hk : k < 512) (hne : s.entryOf b k ≠ 0) (h : s.Behind d (s.entryOf b k) z) :
    s.Behind (d + 1) b z :=
  Or.inr ⟨trivial, k, hk, hne, h⟩

theorem Met.behind (h : s.Met d b z) : s.Behind d b z := by
  induction d generalizing b with
  | zero => exact h
  | succ d ih =>
    rcases h with rfl | ⟨-, k, hk, hne, hmet⟩
    · exact Behind.root
    · exact Behind.entry hk hne (ih hmet)

theorem Grove.used (h : s.Grove d b) : s.Used b := by
  cases d with
  | zero => exact h
  | succ d => exact h.1

theorem Grove.ne_zero (h : s.Grove d b) (hs : s.super.Sound) : b ≠ 0 := by
  have h1 := hs.first_pos
  have h2 := h.used.1
  omega

/-- A tree is read off its own blocks. -/
theorem entryOf_root (h : ∀ z, s.Behind d b z → s'.contents z = s.contents z) : s'.entryOf b = s.entryOf b :=
  funext fun k => entryOf_congr (fun _ => h b Behind.root) k

theorem reach_congr {R R' : Nat → Prop} (h : ∀ z, s.Behind d b z → s'.contents z = s.contents z)
    (hR : ∀ z, s.Behind d b z → (R' z ↔ R z)) (z : Nat) : s'.Reach R' d b z ↔ s.Reach R d b z := by
  induction d generalizing b z with
  | zero => exact Iff.rfl
  | succ d ih =>
    show _ ∨ _ ↔ _ ∨ _
    rw [entryOf_root h, hR b Behind.root]
    refine or_congr_right (and_congr_right fun _ => exists_congr fun k =>
      and_congr_right fun hk => and_congr_right fun hne => ?_)
    exact ih (fun y hy => h y (hy.entry hk hne)) (fun y hy => hR y (hy.entry hk hne)) z

theorem behind_congr (h : ∀ z, s.Behind d b z → s'.contents z = s.contents z) (z : Nat) :
    s'.Behind d b z ↔ s.Behind d b z :=
  reach_congr h (fun _ _ => Iff.rfl) z

theorem Grove.congr (hg : s.Grove d b) (h : ∀ z, s.Behind d b z → s'.contents z = s.contents z)
    (hused : ∀ z, s.Behind d b z → s.Used z → s'.Used z) : s'.Grove d b := by
  induction d generalizing b with
  | zero => exact hused b rfl hg
  | succ d ih =>
    obtain ⟨hb, hsub, hapart⟩ := hg
    have hbehind : ∀ k < 512, s.entryOf b k ≠ 0 → ∀ z, s'.Behind d (s.entryOf b k) z ↔ s.Behind d (s.entryOf b k) z :=
      fun k hk hne => behind_congr fun y hy => h y (hy.entry hk hne)
    refine ⟨hused b Behind.root hb, fun k hk hne => ?_, fun k hk l hl hkl hne hne' z hz => ?_⟩
    · rw [entryOf_root h] at hne ⊢
      refine ⟨ih (hsub k hk hne).1 (fun y hy => h y (hy.entry hk hne)) fun y hy => hused y (hy.entry hk hne), ?_⟩
      rw [hbehind k hk hne]
      exact (hsub k hk hne).2
    · rw [entryOf_root h] at hne hne' hz ⊢
      rw [hbehind k hk hne] at hz
      rw [hbehind l hl hne']
      exact hapart k hk l hl hkl hne hne' z hz

/-! ## What freeing a tree does -/

end Dev

/-- `free_block` has been called for the zones in `gone`. The ones whose buffers somebody has stay used, and their
buffers have one more reference. -/
structure Trim (gone : Nat → Prop) (s s' : Dev) : Prop where
  used : ∀ z, s'.Used z ↔ s.Used z ∧ ¬ (gone z ∧ s.held z = 0)
  kept : ∀ z, ¬ (gone z ∧ s.held z ≠ 0) → s'.held z = s.held z
  stuck : ∀ z, gone z → s.held z ≠ 0 → s'.held z = s.held z + 1
  contents : ∀ z, ¬ gone z → s'.contents z = s.contents z
  readable : ∀ z, ¬ gone z → (s'.Readable z ↔ s.Readable z)
  uptodate : ∀ z, ¬ gone z → (s.cache.head z).uptodate = true → (s'.cache.head z).uptodate = true
  super : s'.super = s.super

namespace Trim

theorem refl (hnone : ∀ z, ¬ gone z) : Trim gone s s := by
  refine ⟨fun z => ?_, fun _ _ => rfl, fun z hz => absurd hz (hnone z), fun _ _ => rfl, fun _ _ => Iff.rfl,
    fun _ _ => id, rfl⟩
  exact (and_iff_left fun hz => hnone z hz.1).symm

theorem congr (h : Trim gone s s') (hgone : ∀ z, gone' z ↔ gone z) : Trim gone' s s' := by
  have heq : gone' = gone := funext fun z => propext (hgone z)
  rw [heq]
  exact h

/-- Zones that are freed later are others. -/
theorem trans (h : Trim gone s s') (h' : Trim gone' s' s'') (hapart : ∀ z, gone z → ¬ gone' z) :
    Trim (fun z => gone z ∨ gone' z) s s'' := by
  have hheld : ∀ z, gone' z → s'.held z = s.held z := fun z hz => h.kept z fun hg => hapart z hg.1 hz
  refine ⟨fun z => ?_, fun z hz => ?_, fun z hz hne => ?_, fun z hz => ?_, fun z hz => ?_, fun z hz hup => ?_,
    h'.super.trans h.super⟩
  · rw [h'.used, h.used]
    have hz := hheld z
    grind
  · have hz' := hheld z
    rw [h'.kept z (by grind), h.kept z fun hg => hz ⟨Or.inl hg.1, hg.2⟩]
  · rcases hz with hz | hz
    · rw [h'.kept z fun hg => hapart z hz hg.1, h.stuck z hz hne]
    · rw [h'.stuck z hz (by rw [hheld z hz]; exact hne), hheld z hz]
  · rw [h'.contents z fun hg => hz (Or.inr hg), h.contents z fun hg => hz (Or.inl hg)]
  · rw [h'.readable z fun hg => hz (Or.inr hg), h.readable z fun hg => hz (Or.inl hg)]
  · exact h'.uptodate z (fun hg => hz (Or.inr hg)) (h.uptodate z (fun hg => hz (Or.inl hg)) hup)

/-- The buffer of another block is taken before and given back after. -/
theorem between {s₁ s₂ : Dev} (hbefore : Same s s₁) (hread : ∀ z, s₁.Readable z ↔ s.Readable z)
    (h : Trim gone s₁ s₂) (hafter : Same s₂ s') (hread' : ∀ z, s'.Readable z ↔ s₂.Readable z)
    (hb : ¬ gone b) (htake : ∀ z ≠ b, s₁.held z = s.held z) (hgive : ∀ z ≠ b, s'.held z = s₂.held z)
    (hback : s'.held b = s.held b) : Trim gone s s' := by
  have hheld : ∀ z, gone z → s₁.held z = s.held z := fun z hz => htake z fun heq => hb (heq ▸ hz)
  refine ⟨fun z => ?_, fun z hz => ?_, fun z hz hne => ?_, fun z hz => ?_, fun z hz => ?_, fun z hz hup => ?_,
    hafter.super.trans (h.super.trans hbefore.super)⟩
  · rw [hafter.used, h.used, hbefore.used]
    have hz := hheld z
    grind
  · by_cases heq : z = b
    · rw [heq, hback]
    · rw [hgive z heq, h.kept z (by rw [htake z heq]; exact hz), htake z heq]
  · have heq : z ≠ b := fun heq => hb (heq ▸ hz)
    rw [hgive z heq, h.stuck z hz (by rw [htake z heq]; exact hne), htake z heq]
  · rw [hafter.contents, h.contents z hz, hbefore.contents]
  · rw [hread', h.readable z hz, hread]
  · exact hafter.cache.uptodate z (h.uptodate z hz (hbefore.cache.uptodate z hup))

/-- The numbers in the inodes do not matter. -/
theorem apart (h : Trim gone s s') (hcache : s''.cache = s'.cache) (hsuper : s''.super = s'.super)
    (hzmap : s''.zmap = s'.zmap) : Trim gone s s'' := by
  have hused : ∀ z, s''.Used z ↔ s'.Used z := by
    intro z
    unfold Dev.Used
    rw [hsuper, hzmap]
  have hheld : s''.held = s'.held := congrArg Cache.held hcache
  have hcontents : s''.contents = s'.contents := congrArg Cache.contents hcache
  refine ⟨fun z => (hused z).trans (h.used z), ?_, ?_, ?_, ?_, ?_, hsuper.trans h.super⟩
  · rw [hheld]
    exact h.kept
  · rw [hheld]
    exact h.stuck
  · rw [hcontents]
    exact h.contents
  · unfold Dev.Readable
    rw [hcache]
    exact h.readable
  · rw [hcache]
    exact h.uptodate

/-- A tree none of whose zones is gone is still there. -/
theorem grove (h : Trim gone s s') (hg : s.Grove d b) (hlive : ∀ z, s.Behind d b z → ¬ gone z) :
    s'.Grove d b ∧ ∀ z, s'.Met d b z ↔ s.Met d b z := by
  have hcontents : ∀ z, s.Behind d b z → s'.contents z = s.contents z := fun z hz => h.contents z (hlive z hz)
  refine ⟨hg.congr hcontents fun z hz hused => ?_, ?_⟩
  · exact (h.used z).mpr ⟨hused, fun hgone => hlive z hz hgone.1⟩
  · exact reach_congr hcontents fun z hz => h.readable z (hlive z hz)

end Trim

/-- `forget` touches the buffer of its block only. If somebody else has it, the reference stays. -/
theorem forget_trims (z : Nat) (s : Dev) :
    Post (s.forget z)
      (fun r => ∃ cache, r.2 = { s with cache } ∧ cache.disk = s.cache.disk ∧ cache.works = s.cache.works ∧
        (∀ y ≠ z, cache.head y = s.cache.head y) ∧
        (s.held z = 0 ∧ r.1 = true ∧ cache.held z = 0 ∨
          s.held z ≠ 0 ∧ r.1 = false ∧ cache.held z = s.held z + 1))
      (fun _ => False) := by
  unfold forget
  split
  · next hnone =>
    have hzero : s.held z = 0 := by
      show (s.cache.head z).count = 0
      simp only [Cache.head, hnone, Option.getD_none]
    exact Post.ret ⟨s.cache, rfl, rfl, rfl, fun _ _ => rfl, Or.inl ⟨hzero, rfl, hzero⟩⟩
  · have hcount : ((s.cache.getblk z).head z).count = s.held z + 1 := by
      rw [Cache.getblk_eq, Cache.head_set_self]
      rfl
    have hother : ∀ y ≠ z, (s.cache.getblk z).head y = s.cache.head y := fun y hy => by
      rw [Cache.getblk_eq, Cache.head_set_of_ne hy]
    have hdisk : (s.cache.getblk z).disk = s.cache.disk := by
      rw [Cache.getblk_eq, Cache.disk_set]
    dsimp only
    split
    · next hne =>
      -- the early return: the count has gone up and stays so
      refine Post.ret ⟨_, rfl, hdisk, (Cache.same_getblk z).works, hother, Or.inr ⟨?_, rfl, hcount⟩⟩
      rw [hcount] at hne
      exact fun hzero => hne (by rw [hzero])
    · next hone =>
      have hzero : s.held z = 0 := by
        rw [hcount] at hone
        omega
      unfold Cache.brelse
      rw [Cache.head_set_self, hcount]
      dsimp only
      rw [if_neg (Nat.succ_ne_zero _)]
      refine Post.ret ⟨_, rfl, hdisk, (Cache.same_getblk z).works, fun y hy => ?_, Or.inl ⟨hzero, rfl, ?_⟩⟩
      · rw [Cache.head_set_of_ne hy, Cache.head_set_of_ne hy, hother y hy]
      · unfold Cache.held
        rw [Cache.head_set_self]
        show s.held z + 1 - 1 = 0
        rw [hzero]

theorem freeBlock_trims (hs : s.super.Sound) (hz : s.Used z) :
    Post (s.freeBlock z) (fun s' => Trim (· = z) s s' ∧ s'.inode = s.inode) (fun _ => False) := by
  unfold freeBlock
  have hin : ¬ (z < s.super.sFirstdatazone ∨ s.super.sNzones ≤ z) := by
    rintro (hlow | hhigh)
    · exact Nat.not_lt.mpr hz.1 hlow
    · exact Nat.not_lt.mpr hhigh hz.2.1
  rw [if_neg hin]
  refine Post.bind (forget_trims z s) ?_
  rintro ⟨done, s₁⟩ ⟨cache, hs₁, hdisk, hworks, hother, hcase⟩
  dsimp only at hs₁ hcase ⊢
  have hheld : ∀ y ≠ z, cache.held y = s.held y := fun y hy => congrArg Buffer.count (hother y hy)
  have hcontents : ∀ y, ¬ y = z → cache.contents y = s.contents y := by
    intro y hy
    unfold Dev.contents Cache.contents
    rw [hother y hy, hdisk]
  have hread : ∀ y, ¬ y = z → (((cache.head y).uptodate = true ∨ cache.works y = true) ↔ s.Readable y) := by
    intro y hy
    unfold Dev.Readable
    rw [hother y hy, hworks]
  have hup : ∀ y, ¬ y = z → (s.cache.head y).uptodate = true → (cache.head y).uptodate = true := by
    intro y hy hup
    rw [hother y hy]
    exact hup
  rcases hcase with ⟨hzero, rfl, hback⟩ | ⟨hne, rfl, hmore⟩
  · rw [if_pos rfl, hs₁]
    unfold clearBit
    dsimp only
    rw [if_pos hz.2.2]
    refine Post.ret ⟨⟨fun y => ?_, fun y _ => ?_, fun y hy hne => ?_, hcontents, hread, hup, rfl⟩, rfl⟩
    · have h1 := hs.first_pos
      have h2 := hz.1
      unfold Dev.Used
      dsimp only
      by_cases hy : y = z
      · simp [hy, hzero]
      · simp only [hy, false_and, not_false_eq_true, and_true]
        refine and_congr_right fun h3 => and_congr_right fun _ => ?_
        rw [Function.update_of_ne (by omega)]
    · by_cases heq : y = z
      · rw [heq, hzero]
        exact hback
      · exact hheld y heq
    · rw [hy] at hne
      exact absurd hzero hne
  · rw [if_neg Bool.false_ne_true, hs₁]
    refine Post.ret ⟨⟨fun y => ?_, fun y hy => ?_, fun y hy _ => ?_, hcontents, hread, hup, rfl⟩, rfl⟩
    · have hstay : ¬ (y = z ∧ s.held y = 0) := by
        rintro ⟨rfl, hzero⟩
        exact hne hzero
      exact (and_iff_left hstay).symm
    · refine hheld y ?_
      rintro rfl
      exact hy ⟨rfl, hne⟩
    · rw [hy]
      exact hmore

/-- The zones of the first `j` trees for which `free_block` has been called. -/
def Dev.MetFirst (s : Dev) (d r : Nat → Nat) (j z : Nat) : Prop := ∃ k < j, r k ≠ 0 ∧ s.Met (d k) (r k) z

theorem Dev.metFirst_succ {d r : Nat → Nat} {j : Nat} (z : Nat) :
    s.MetFirst d r (j + 1) z ↔ s.MetFirst d r j z ∨ r j ≠ 0 ∧ s.Met (d j) (r j) z := by
  constructor
  · rintro ⟨k, hk, hne, hmet⟩
    rcases Nat.lt_succ_iff_lt_or_eq.mp hk with hlt | rfl
    · exact Or.inl ⟨k, hlt, hne, hmet⟩
    · exact Or.inr ⟨hne, hmet⟩
  · rintro (⟨k, hk, hne, hmet⟩ | ⟨hne, hmet⟩)
    · exact ⟨k, Nat.lt_succ_of_lt hk, hne, hmet⟩
    · exact ⟨j, Nat.lt_succ_self j, hne, hmet⟩

/-- Freeing a tree meets the zones that can be reached, and no others. -/
def Trims (d : Nat) : Prop :=
  ∀ (s : Dev) (b : Nat), s.super.Sound → s.Grove d b →
    Post (s.freeTree d b) (fun s' => Trim (s.Met d b) s s' ∧ s'.inode = s.inode) (fun _ => False)

/-- The next one of several trees is freed, if there is one. -/
theorem Trims.step {m j : Nat} {d r : Nat → Nat} (htrims : Trims (d j)) (hs : s.super.Sound)
    (hapart : s.Apart m d r) (hg : r j ≠ 0 → s.Grove (d j) (r j)) (hj : j < m)
    (htrim : Trim (s.MetFirst d r j) s s') :
    Post (if r j = 0 then .ok s' else s'.freeTree (d j) (r j))
      (fun s'' => Trim (s.MetFirst d r (j + 1)) s s'' ∧ s''.inode = s'.inode) (fun _ => False) := by
  split
  · next hnone =>
    refine Post.ret ⟨htrim.congr fun z => ?_, rfl⟩
    rw [metFirst_succ]
    exact or_iff_left fun hz => hz.1 hnone
  · next hne =>
    -- none of its zones has been met in the trees before it
    have hlive : ∀ z, s.Behind (d j) (r j) z → ¬ s.MetFirst d r j z := by
      rintro z hz ⟨k, hk, hne', hmet⟩
      exact hapart k (Nat.lt_trans hk hj) j hj (Nat.ne_of_lt hk) hne' hne z hmet.behind hz
    obtain ⟨hgrove, hmet⟩ := htrim.grove (hg hne) hlive
    refine (htrims s' _ (by rw [htrim.super]; exact hs) hgrove).imp ?_
    rintro s'' ⟨htrim', hinode⟩
    refine ⟨(htrim.trans (htrim'.congr fun z => (hmet z).symm) fun z hz hz' => ?_).congr fun z => ?_, hinode⟩
    · exact hlive z hz'.behind hz
    · rw [metFirst_succ]
      exact or_congr_right (and_iff_right hne)

/-- The root is not behind one of its entries. -/
theorem Dev.Grove.root_apart {j : Nat} (hg : s.Grove (d + 1) b) (hj : j ≤ 512) :
    ¬ s.MetFirst (fun _ => d) (s.entryOf b) j b := by
  rintro ⟨k, hk, hne, hmet⟩
  exact (hg.2.1 k (Nat.lt_of_lt_of_le hk hj) hne).2 hmet.behind

/-- All entries of an index block, if it can be read. -/
theorem Trims.entries (htrims : Trims d) (hs : s.super.Sound) (hg : s.Grove (d + 1) b) :
    Post (s.freeEntries (fun z s => s.freeTree d z) b)
      (fun s' => Trim (fun z => s.Readable b ∧ s.MetFirst (fun _ => d) (s.entryOf b) 512 z) s s' ∧
        s'.inode = s.inode)
      (fun _ => False) := by
  unfold freeEntries
  refine Post.bind (bread_readable b s) ?_
  rintro ⟨got, s₁⟩ ⟨hsame, hread, hcase⟩
  dsimp only at hsame hread hcase ⊢
  have hcontents : ∀ z, s₁.contents z = s.contents z := fun z => by rw [hsame.contents]
  rcases hcase with ⟨hok, rfl, hup, hheld⟩ | ⟨hbad, rfl, hheld⟩
  · rw [if_pos rfl]
    have hg₁ : s₁.Grove (d + 1) b :=
      hg.congr (fun z _ => hcontents z) fun z _ hz => (hsame.used z).mpr hz
    have hs₁ : s₁.super.Sound := by
      rw [hsame.super]
      exact hs
    let I := fun (j : Nat) (s₂ : Dev) =>
      Trim (s₁.MetFirst (fun _ => d) (s₁.entryOf b) j) s₁ s₂ ∧ s₂.inode = s₁.inode
    have hstart : I 0 s₁ := ⟨Trim.refl fun z hz => hz.elim fun k hk => Nat.not_lt_zero k hk.1, rfl⟩
    have hstep : ∀ j < 512, ∀ s₂, I j s₂ →
        Post (if s₂.entry b j = 0 then .ok s₂ else s₂.freeTree d (s₂.entry b j)) (I (j + 1)) (fun _ => False) := by
      rintro j hj s₂ ⟨htrim, hinode⟩
      -- the buffer is still up to date, and the block itself has not been freed
      have hb := hg₁.root_apart (Nat.le_of_lt hj)
      have hentry : s₂.entry b j = s₁.entryOf b j := by
        rw [entry_eq j (htrim.uptodate b hb hup), htrim.contents b hb, entryOf, if_neg (hg.ne_zero hs)]
      rw [hentry]
      refine (Trims.step (d := fun _ => d) htrims hs₁ hg₁.2.2 (fun hne => (hg₁.2.1 j hj hne).1) hj htrim).imp ?_
      exact fun s₃ h₃ => ⟨h₃.1, h₃.2.trans hinode⟩
    refine Post.bind (Post.foldlM_range (I := I) 512 hstep hstart) ?_
    rintro s₂ ⟨htrim, hinode⟩
    have hb := hg₁.root_apart (Nat.le_refl 512)
    have hone : s₂.held b = s.held b + 1 := by
      rw [htrim.kept b fun hz => hb hz.1, hheld, Function.update_self]
    refine (brelse_readable hone).imp ?_
    rintro s₃ ⟨hsame₃, hread₃, hheld₃⟩
    have hmet : ∀ z, (s.Readable b ∧ s.MetFirst (fun _ => d) (s.entryOf b) 512 z) ↔
        s₁.MetFirst (fun _ => d) (s₁.entryOf b) 512 z := by
      intro z
      unfold MetFirst
      rw [entryOf_root fun y (_ : s.Behind d b y) => hcontents y, and_iff_right hok]
      refine exists_congr fun k => and_congr_right fun _ => and_congr_right fun _ => ?_
      exact (reach_congr (fun y _ => hcontents y) (fun y _ => hread y) z).symm
    refine ⟨(Trim.between hsame hread htrim hsame₃ hread₃ hb (fun z hz => ?_) (fun z hz => ?_) ?_).congr hmet,
      hsame₃.inode.trans (hinode.trans hsame.inode)⟩
    · rw [hheld, Function.update_of_ne hz]
    · rw [hheld₃, Function.update_of_ne hz]
    · rw [hheld₃, Function.update_self]
  · rw [if_neg Bool.false_ne_true]
    have hnone : ∀ z, ¬ (s.Readable b ∧ s.MetFirst (fun _ => d) (s.entryOf b) 512 z) := fun z hz => hbad hz.1
    refine Post.ret ⟨Trim.between (Same.refl s) (fun _ => Iff.rfl) (Trim.refl hnone) hsame hread (hnone b)
      (fun _ _ => rfl) (fun z _ => ?_) ?_, hsame.inode⟩
    · rw [hheld]
    · rw [hheld]

/-- The blocks of a tree are freed, as far as they can be. -/
theorem freeTree_trims (d : Nat) : Trims d := by
  induction d with
  | zero => exact fun s b hs hg => freeBlock_trims hs hg
  | succ d ih =>
    intro s b hs hg
    show Post (s.freeIndex (freeTree d) b) _ _
    unfold freeIndex
    rw [if_neg (hg.ne_zero hs)]
    refine Post.bind (ih.entries hs hg) ?_
    rintro s₁ ⟨htrim, hinode⟩
    have hb : ¬ (s.Readable b ∧ s.MetFirst (fun _ => d) (s.entryOf b) 512 b) :=
      fun h => hg.root_apart (Nat.le_refl 512) h.2
    have hused : s₁.Used b := (htrim.used b).mpr ⟨hg.1, fun h => hb h.1⟩
    refine (freeBlock_trims (by rw [htrim.super]; exact hs) hused).imp ?_
    rintro s₂ ⟨htrim', hinode'⟩
    refine ⟨(htrim.trans htrim' fun z hz heq => hb (heq ▸ hz)).congr fun z => ?_, hinode'.trans hinode⟩
    exact Or.comm

/-! ## The slots of an inode -/

/-- The depth of the tree behind a slot. -/
def Slot.depth : Slot → Nat
  | zone i => i - 6
  | ind _ => 0
  | dind _ => 1
  | leaf _ _ => 0

namespace Slot

variable {p sl q : Slot}

theorem depth_succ (hp : p.Valid) (hd : p.depth = d + 1) : p.Index ∧ ∀ k, (p.child k).depth = d := by
  cases p with
  | zone i =>
    change i < 9 at hp
    change i - 6 = d + 1 at hd
    rcases (show i = 7 ∧ d = 0 ∨ i = 8 ∧ d = 1 by omega) with ⟨rfl, rfl⟩ | ⟨rfl, rfl⟩
    · exact ⟨Nat.le_refl 7, fun _ => rfl⟩
    · exact ⟨by show 7 ≤ 8; decide, fun _ => rfl⟩
  | ind k => cases hd
  | dind k =>
    cases hd
    exact ⟨trivial, fun _ => rfl⟩
  | leaf k l => cases hd

theorem depth_zero (hsl : sl.Valid) (hd : p.depth = 0) : p ∉ sl.above := by
  intro hmem
  obtain ⟨hp, hindex⟩ := above_valid hsl hmem
  cases p with
  | zone i =>
    change i - 6 = 0 at hd
    change 7 ≤ i at hindex
    omega
  | ind k => exact hindex
  | dind k => cases hd
  | leaf k l => exact hindex

/-- Between an index block and a slot behind its entry `k` lies what is behind that entry. -/
theorem above_between {k : Nat} (hp : p.Index) (hsl : sl.Valid) (hk : sl = p.child k ∨ p.child k ∈ sl.above)
    (hq : q ∈ sl.above) (hpq : p ∈ q.above) : q = p.child k ∨ p.child k ∈ q.above := by
  obtain ⟨l, hl, hql⟩ := above_child (above_valid hsl hq).1 hpq
  have hsl' : sl = p.child l ∨ p.child l ∈ sl.above := by
    rcases hql with rfl | hmem
    · exact Or.inr hq
    · exact Or.inr (above_trans hmem hq)
  by_cases hkl : k = l
  · rw [hkl]
    exact hql
  · exact absurd hsl' (child_apart hp hkl hk)

theorem not_below_self (hq : q ∈ sl.above) : ¬ (q = sl ∨ sl ∈ q.above) := by
  rintro (rfl | hmem)
  · exact not_above_self _ hq
  · exact not_above_self _ (above_trans hmem hq)

/-- Every slot is behind one number in the inode. -/
theorem root (hsl : sl.Valid) : ∃ k < 9, sl = .zone k ∨ .zone k ∈ sl.above := by
  cases sl with
  | zone i => exact ⟨i, hsl, Or.inl rfl⟩
  | ind k => exact ⟨7, by decide, Or.inr (List.mem_singleton.mpr rfl)⟩
  | dind k => exact ⟨8, by decide, Or.inr (List.mem_singleton.mpr rfl)⟩
  | leaf k l => exact ⟨8, by decide, Or.inr List.mem_cons_self⟩

theorem root_unique {k l : Nat} (hk : sl = .zone k ∨ .zone k ∈ sl.above) (hl : sl = .zone l ∨ .zone l ∈ sl.above) :
    k = l := by
  cases sl <;> simp_all [above]

/-- The way to a slot starts at the number in the inode. -/
theorem above_root {k : Nat} (hk : sl = .zone k ∨ .zone k ∈ sl.above) (hq : q ∈ sl.above) :
    q = .zone k ∨ .zone k ∈ q.above := by
  cases sl <;> simp_all [above]
  rcases hq with rfl | rfl
  · exact Or.inl rfl
  · exact Or.inr (List.mem_singleton.mpr rfl)

end Slot

/-- A tree of blocks is what lies behind a slot. -/
theorem Dev.reach_iff {R : Nat → Prop} {p : Slot} (hp : p.Valid) (hd : p.depth = d) (hne : s.slotZone n p ≠ 0)
    (z : Nat) :
    s.Reach R d (s.slotZone n p) z ↔ z ≠ 0 ∧ ∃ sl : Slot, sl.Valid ∧ (sl = p ∨ p ∈ sl.above) ∧
      (∀ q ∈ sl.above, q = p ∨ p ∈ q.above → R (s.slotZone n q)) ∧ s.slotZone n sl = z := by
  induction d generalizing p z with
  | zero =>
    constructor
    · rintro rfl
      exact ⟨hne, p, hp, Or.inl rfl, fun q hq h => absurd h (Slot.not_below_self hq), rfl⟩
    · rintro ⟨-, sl, hsl, rfl | hmem, -, rfl⟩
      · rfl
      · exact absurd hmem (Slot.depth_zero hsl hd)
  | succ d ih =>
    obtain ⟨hindex, hchild⟩ := Slot.depth_succ hp hd
    constructor
    · rintro (rfl | ⟨hR, k, hk, hne', hreach⟩)
      · exact ⟨hne, p, hp, Or.inl rfl, fun q hq h => absurd h (Slot.not_below_self hq), rfl⟩
      · obtain ⟨hvalid, habove⟩ := Slot.child_valid hindex hp hk
        rw [← slotZone_child hindex hp] at hne' hreach
        obtain ⟨hz, sl, hsl, hbelow, hway, heq⟩ := (ih hvalid (hchild k) hne' z).mp hreach
        refine ⟨hz, sl, hsl, Or.inr ?_, fun q hq h => ?_, heq⟩
        · rcases hbelow with rfl | hmem
          · exact habove
          · exact Slot.above_trans habove hmem
        · rcases h with rfl | h
          · exact hR
          · exact hway q hq (Slot.above_between hindex hsl hbelow hq h)
    · rintro ⟨hz, sl, hsl, rfl | hmem, hway, rfl⟩
      · exact Or.inl rfl
      · obtain ⟨k, hk, hbelow⟩ := Slot.above_child hsl hmem
        obtain ⟨hvalid, habove⟩ := Slot.child_valid hindex hp hk
        have hne' : s.slotZone n (p.child k) ≠ 0 := by
          intro hzero
          rcases hbelow with rfl | hmem'
          · exact hz hzero
          · exact hz (slotZone_below hmem' hzero)
        refine Or.inr ⟨hway p hmem (Or.inl rfl), k, hk, ?_, ?_⟩
        · rw [← slotZone_child hindex hp]
          exact hne'
        · rw [← slotZone_child hindex hp]
          refine (ih hvalid (hchild k) hne' _).mpr ⟨hz, sl, hsl, hbelow, fun q hq h => ?_, rfl⟩
          refine hway q hq (Or.inr ?_)
          rcases h with rfl | h
          · exact habove
          · exact Slot.above_trans habove h

theorem Dev.behind_iff {p : Slot} (hp : p.Valid) (hd : p.depth = d) (hne : s.slotZone n p ≠ 0) (z : Nat) :
    s.Behind d (s.slotZone n p) z ↔
      z ≠ 0 ∧ ∃ sl : Slot, sl.Valid ∧ (sl = p ∨ p ∈ sl.above) ∧ s.slotZone n sl = z := by
  refine (reach_iff hp hd hne z).trans (and_congr_right fun _ => exists_congr fun sl => and_congr_right fun _ =>
    and_congr_right fun _ => and_iff_right fun _ _ _ => trivial)

/-- The zones of inode `n` are used, and each is in one slot. -/
structure Dev.Tree (s : Dev) (n : Nat) : Prop where
  used : ∀ sl : Slot, sl.Valid → s.slotZone n sl ≠ 0 → s.Used (s.slotZone n sl)
  inj : ∀ sl sl' : Slot, sl.Valid → sl'.Valid → s.slotZone n sl ≠ 0 → s.slotZone n sl' = s.slotZone n sl → sl' = sl

theorem ZoneInv.tree {tight : Prop} {zoned : Nat → Prop} (h : ZoneInv tight zoned noDead s) (hn : zoned n) :
    s.Tree n := by
  refine ⟨fun sl hsl hz => h.used hn hsl hz, fun sl sl' hsl hsl' hz heq => ?_⟩
  have hself := h.owns.inj (n, sl') (n, sl) _ ⟨hn, hsl', id, heq, hz⟩ ⟨hn, hsl, id, rfl, hz⟩
  exact congrArg Prod.snd hself

/-- What is behind two slots is behind one of them through the other. -/
theorem Dev.Tree.apart {p q : Slot} {d d' : Nat} (h : s.Tree n) (hp : p.Valid) (hq : q.Valid) (hd : p.depth = d)
    (hd' : q.depth = d') (hne : s.slotZone n p ≠ 0) (hne' : s.slotZone n q ≠ 0)
    (hz : s.Behind d (s.slotZone n p) z) (hz' : s.Behind d' (s.slotZone n q) z) :
    ∃ sl : Slot, (sl = p ∨ p ∈ sl.above) ∧ (sl = q ∨ q ∈ sl.above) := by
  obtain ⟨hzero, sl, hsl, hbelow, heq⟩ := (behind_iff hp hd hne z).mp hz
  obtain ⟨-, sl', hsl', hbelow', heq'⟩ := (behind_iff hq hd' hne' z).mp hz'
  have hsame : sl' = sl := h.inj sl sl' hsl hsl' (by rw [heq]; exact hzero) (by rw [heq, heq'])
  exact ⟨sl, hbelow, hsame ▸ hbelow'⟩

theorem Dev.Tree.grove {p : Slot} (h : s.Tree n) (hp : p.Valid) (hd : p.depth = d) (hne : s.slotZone n p ≠ 0) :
    s.Grove d (s.slotZone n p) := by
  induction d generalizing p with
  | zero => exact h.used p hp hne
  | succ d ih =>
    obtain ⟨hindex, hchild⟩ := Slot.depth_succ hp hd
    refine ⟨h.used p hp hne, fun k hk hne' => ?_, fun k hk l hl hkl hne' hne'' z hz hz' => ?_⟩
    · obtain ⟨hvalid, habove⟩ := Slot.child_valid hindex hp hk
      rw [← slotZone_child hindex hp] at hne' ⊢
      refine ⟨ih hvalid (hchild k) hne', fun hroot => ?_⟩
      obtain ⟨-, sl, hsl, hbelow, heq⟩ := (behind_iff hvalid (hchild k) hne' _).mp hroot
      have hself : sl = p := h.inj p sl hp hsl hne heq
      rw [hself] at hbelow
      rcases hbelow with heq' | hmem
      · rw [← heq'] at habove
        exact Slot.not_above_self p habove
      · exact Slot.not_above_self p (Slot.above_trans habove hmem)
    · rw [← slotZone_child hindex hp] at hne' hne'' hz hz'
      obtain ⟨sl, hbelow, hbelow'⟩ := h.apart (Slot.child_valid hindex hp hk).1 (Slot.child_valid hindex hp hl).1
        (hchild k) (hchild l) hne' hne'' hz hz'
      exact Slot.child_apart hindex hkl hbelow hbelow'

/-! ## truncate -/

theorem Dev.freeInd_eq (b : Nat) (s : Dev) : s.freeInd b = if b = 0 then .ok s else s.freeTree 1 b := by
  show s.freeIndex _ b = if b = 0 then _ else s.freeIndex _ b
  split
  · next hb => exact if_pos hb
  · rfl

theorem Dev.freeDind_eq (b : Nat) (s : Dev) : s.freeDind b = if b = 0 then .ok s else s.freeTree 2 b := by
  show s.freeIndex _ b = if b = 0 then _ else s.freeIndex _ b
  split
  · next hb => exact if_pos hb
  · rfl

/-- The trees of a file. -/
theorem Dev.Tree.roots_apart (h : s.Tree n) : s.Apart 9 (· - 6) (s.inode n).iZone := by
  intro k hk l hl hkl hne hne' z hz hz'
  obtain ⟨sl, hbelow, hbelow'⟩ := Dev.Tree.apart (p := .zone k) (q := .zone l) h hk hl rfl rfl hne hne' hz hz'
  exact hkl (Slot.root_unique hbelow hbelow')

/-- The zones of a file for which `free_block` is called. -/
def Dev.Reached (s : Dev) (n : Nat) : Nat → Prop := s.MetFirst (· - 6) (s.inode n).iZone 9

/-- They are the ones in slots that can be reached through index blocks that can be read. -/
theorem Dev.reached_iff (z : Nat) :
    s.Reached n z ↔ z ≠ 0 ∧ ∃ sl : Slot, sl.Valid ∧ (∀ q ∈ sl.above, s.Readable (s.slotZone n q)) ∧
      s.slotZone n sl = z := by
  constructor
  · rintro ⟨k, hk, hne, hmet⟩
    obtain ⟨hz, sl, hsl, hbelow, hway, heq⟩ := (reach_iff (p := .zone k) hk rfl hne z).mp hmet
    exact ⟨hz, sl, hsl, fun q hq => hway q hq (Slot.above_root hbelow hq), heq⟩
  · rintro ⟨hz, sl, hsl, hway, rfl⟩
    obtain ⟨k, hk, hbelow⟩ := Slot.root hsl
    have hne : s.slotZone n (.zone k) ≠ 0 := by
      intro hzero
      rcases hbelow with rfl | hmem
      · exact hz hzero
      · exact hz (slotZone_below hmem hzero)
    exact ⟨k, hk, hne, (reach_iff (p := .zone k) hk rfl hne _).mpr ⟨hz, sl, hsl, hbelow, fun q hq _ => hway q hq, rfl⟩⟩

/-- The trees before `j` have been freed; the numbers of the others are still in the inode. -/
structure Cutting (n : Nat) (s : Dev) (j : Nat) (s' : Dev) : Prop where
  trim : Trim (s.MetFirst (· - 6) (s.inode n).iZone j) s s'
  rest : ∀ k, j ≤ k → (s'.inode n).iZone k = (s.inode n).iZone k

/-- The next tree is freed. -/
theorem Cutting.step {j : Nat} (hs : s.super.Sound) (htree : s.Tree n) (hj : j < 9) (h : Cutting n s j s') :
    Post (if (s'.inode n).iZone j = 0 then .ok s' else s'.freeTree (j - 6) ((s'.inode n).iZone j))
      (fun s'' => Cutting n s (j + 1) s'' ∧ s''.inode = s'.inode) (fun _ => False) := by
  rw [h.rest j (Nat.le_refl j)]
  refine (Trims.step (d := fun k => k - 6) (freeTree_trims _) hs htree.roots_apart
    (fun hne => Dev.Tree.grove (p := .zone j) htree hj rfl hne) hj h.trim).imp ?_
  rintro s'' ⟨htrim, hinode⟩
  refine ⟨⟨htrim, fun k hk => ?_⟩, hinode⟩
  rw [hinode]
  exact h.rest k (Nat.le_of_succ_le hk)

/-- A direct zone is freed, and its number is cleared. -/
theorem Cutting.direct {j : Nat} (hs : s.super.Sound) (htree : s.Tree n) (hj : j < 7) (h : Cutting n s j s') :
    Post (s'.freeDirect n j) (Cutting n s (j + 1)) (fun _ => False) := by
  have hstep := h.step hs htree (Nat.lt_trans hj (by decide))
  have hdepth : j - 6 = 0 := by omega
  rw [hdepth] at hstep
  unfold freeDirect
  split
  · next hzero =>
    rw [if_pos hzero] at hstep
    exact Post.ret (hstep.of_ok s' rfl).1
  · next hne =>
    rw [if_neg hne] at hstep
    refine Post.bind hstep fun s₁ h₁ => Post.ret ⟨h₁.1.trim.apart rfl rfl rfl, fun k hk => ?_⟩
    rw [setZone_self]
    show Function.update _ j 0 k = _
    rw [Function.update_of_ne (Nat.ne_of_gt hk)]
    exact h₁.1.rest k hk

/-- What `truncate` of a regular file or a directory does to the zones and the buffers. -/
theorem truncate_trims (hs : s.super.Sound) (htree : s.Tree n) (hfile : s.Filed n) :
    Post (s.truncate n) (Trim (s.Reached n) s) (fun _ => False) := by
  unfold truncate
  rw [if_neg (by rcases hfile with hreg | hdir <;> simp [*])]
  have hstart : Cutting n s 0 s :=
    ⟨Trim.refl fun z hz => hz.elim fun k hk => Nat.not_lt_zero k hk.1, fun _ _ => rfl⟩
  refine Post.bind (Post.foldlM_range 7 (fun j hj s₁ h₁ => h₁.direct hs htree hj) hstart) fun s₁ h₁ => ?_
  rw [freeInd_eq]
  refine Post.bind (h₁.step hs htree (by decide)) fun s₂ h₂ => ?_
  rw [freeDind_eq]
  refine Post.bind (h₂.1.step hs htree (by decide)) fun s₃ h₃ => ?_
  exact Post.ret (h₃.1.trim.apart rfl rfl rfl)

/-- `truncate` gives all zones of the file and all references back just if nobody has a buffer of one of the zones,
and the index blocks on the way to them can be read. -/
theorem truncate_meets (hs : s.super.Sound) (htree : s.Tree n) (hfile : s.Filed n) :
    ∃ s', s.truncate n = .ok s' ∧
      ((∀ sl : Slot, sl.Valid → s.slotZone n sl ≠ 0 → ¬ s'.Used (s.slotZone n sl)) ∧ (∀ b, s'.held b = s.held b) ↔
        ∀ sl : Slot, sl.Valid → s.slotZone n sl ≠ 0 →
          s.held (s.slotZone n sl) = 0 ∧ ∀ q ∈ sl.above, s.Readable (s.slotZone n q)) := by
  obtain ⟨s', hrun, htrim⟩ := (truncate_trims hs htree hfile).returns
  refine ⟨s', hrun, fun ⟨hfreed, _⟩ sl hsl hz => ?_, fun h => ⟨fun sl hsl hz => ?_, fun b => ?_⟩⟩
  · have hnot := hfreed sl hsl hz
    rw [htrim.used] at hnot
    have hgone : s.Reached n (s.slotZone n sl) ∧ s.held (s.slotZone n sl) = 0 := by
      by_contra hstay
      exact hnot ⟨htree.used sl hsl hz, hstay⟩
    obtain ⟨-, sl', hsl', hway, heq⟩ := (reached_iff _).mp hgone.1
    have hself := htree.inj sl sl' hsl hsl' hz heq
    rw [hself] at hway
    exact ⟨hgone.2, hway⟩
  · rw [htrim.used]
    obtain ⟨hheld, hway⟩ := h sl hsl hz
    exact fun hstay => hstay.2 ⟨(reached_iff _).mpr ⟨hz, sl, hsl, hway, rfl⟩, hheld⟩
  · refine htrim.kept b ?_
    rintro ⟨hgone, hheld⟩
    obtain ⟨hz, sl, hsl, -, rfl⟩ := (reached_iff _).mp hgone
    exact hheld (h sl hsl hz).1

/-- A file of one zone, with so many references to its buffer. -/
def oneZone (count : Nat) : Dev where
  cache := ⟨fun b => if b = 10 then some ⟨fun _ => 0, true, false, count⟩ else none, fun _ _ => 0, fun _ => true,
    fun _ _ => 0⟩
  super := ⟨32, 100, 1, 1, 10⟩
  zmap := fun j => decide (j ≤ 1)
  imap := fun j => decide (j ≤ 1)
  inode := fun _ => { Inode.zero with
    iMode := 0o100644, iSize := 1024, iNlinks := 1, iCount := 1, iZone := Function.update (fun _ => 0) 0 10 }

theorem oneZone_slot (count : Nat) {sl : Slot} (hz : (oneZone count).slotZone 1 sl ≠ 0) :
    sl = .zone 0 ∧ (oneZone count).slotZone 1 sl = 10 := by
  have hother : ∀ k, k ≠ 0 → (oneZone count).slotZone 1 (.zone k) = 0 := by
    intro k hk
    show Function.update (fun _ => 0) 0 10 k = 0
    exact Function.update_of_ne hk ..
  cases sl with
  | zone i =>
    by_cases hi : i = 0
    · rw [hi]
      exact ⟨rfl, rfl⟩
    · exact absurd (hother i hi) hz
  | ind k => exact absurd (slotZone_below (List.mem_singleton.mpr rfl) (hother 7 (by decide))) hz
  | dind k => exact absurd (slotZone_below (List.mem_singleton.mpr rfl) (hother 8 (by decide))) hz
  | leaf k l => exact absurd (slotZone_below List.mem_cons_self (hother 8 (by decide))) hz

theorem oneZone_sound (count : Nat) : (oneZone count).super.Sound := by
  show (⟨32, 100, 1, 1, 10⟩ : Super).Sound
  constructor <;> decide

theorem oneZone_tree (count : Nat) : (oneZone count).Tree 1 := by
  refine ⟨fun sl _ hz => ?_, fun sl sl' _ _ hz heq => ?_⟩
  · rw [(oneZone_slot count hz).2]
    exact ⟨by show 10 ≤ 10; decide, by show 10 < 100; decide, rfl⟩
  · have hz' : (oneZone count).slotZone 1 sl' ≠ 0 := by
      rw [heq]
      exact hz
    rw [(oneZone_slot count hz).1, (oneZone_slot count hz').1]

/-- Nobody has the buffer. -/
theorem truncate_meets_unheld : ∃ s', (oneZone 0).truncate 1 = .ok s' ∧
    (∀ sl : Slot, sl.Valid → (oneZone 0).slotZone 1 sl ≠ 0 → ¬ s'.Used ((oneZone 0).slotZone 1 sl)) ∧
      ∀ b, s'.held b = (oneZone 0).held b := by
  obtain ⟨s', hrun, hmeets⟩ := truncate_meets (oneZone_sound 0) (oneZone_tree 0) (Or.inl (by decide))
  refine ⟨s', hrun, hmeets.mpr fun sl _ hz => ?_⟩
  obtain ⟨hsl, hzone⟩ := oneZone_slot 0 hz
  rw [hzone, hsl]
  exact ⟨rfl, fun q hq => (by cases hq)⟩

/-- One other process has it: the zone stays marked as used, and the buffer has two references. -/
theorem truncate_leaks : (oneZone 1).super.Sound ∧ (oneZone 1).Tree 1 ∧ (oneZone 1).Filed 1 ∧
    ∃ s', (oneZone 1).truncate 1 = .ok s' ∧ s'.Used ((oneZone 1).slotZone 1 (.zone 0)) ∧
      (oneZone 1).held 10 = 1 ∧ s'.held 10 = 2 := by
  have hfile : (oneZone 1).Filed 1 := Or.inl (by decide)
  refine ⟨oneZone_sound 1, oneZone_tree 1, hfile, ?_⟩
  obtain ⟨s', hrun, htrim⟩ := (truncate_trims (oneZone_sound 1) (oneZone_tree 1) hfile).returns
  have hmet : (oneZone 1).Reached 1 10 :=
    (reached_iff 10).mpr ⟨by decide, .zone 0, by show 0 < 9; decide, fun q hq => (by cases hq), rfl⟩
  have hheld : (oneZone 1).held 10 = 1 := rfl
  refine ⟨s', hrun, (htrim.used _).mpr ⟨?_, fun hgone => ?_⟩, hheld, ?_⟩
  · exact (oneZone_tree 1).used (.zone 0) (by show 0 < 9; decide) (by decide)
  · have hzero : (oneZone 1).held 10 = 0 := hgone.2
    rw [hheld] at hzero
    cases hzero
  · rw [htrim.stuck 10 hmet (by rw [hheld]; decide), hheld]

end Linux011.Fs
