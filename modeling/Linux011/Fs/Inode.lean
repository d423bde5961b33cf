import Linux011.Fs.Bitmap

/-!
# fs/inode.c and fs/truncate.c

How the blocks of a file are found, made and freed. An inode has seven direct zones, the zone of an
index block with 512 entries in `i_zone[7]`, and in `i_zone[8]` the zone of an index block of index
blocks. `Slot` names the places that can hold a zone number, and `slotZone` reads them.
-/

namespace Linux011.Fs

open Linux011.Lib

/-- `S_ISREG` -/
def isReg (mode : Nat) : Bool := mode &&& 0xF000 == 0x8000

/-- `S_ISDIR` -/
def isDir (mode : Nat) : Bool := mode &&& 0xF000 == 0x4000

/-- `S_ISBLK` -/
def isBlk (mode : Nat) : Bool := mode &&& 0xF000 == 0x6000

/-- `S_ISCHR` -/
def isChr (mode : Nat) : Bool := mode &&& 0xF000 == 0x2000

namespace Dev

/-- A step of `_bmap` at `i_zone[k]`: a missing zone is created if wanted. -/
def inodeZone (create : Bool) (n k : Nat) (s : Dev) : Except Panic (Nat × Dev) :=
  if create ∧ (s.inode n).iZone k = 0 then do
    let (z, s) ← s.newBlock
    if z = 0 then return (0, s) else return (z, s.setZone n k z)
  else .ok ((s.inode n).iZone k, s)

/-- A step of `_bmap` at entry `k` of the index block `b`. -/
def entryZone (create : Bool) (b k : Nat) (s : Dev) : Except Panic (Nat × Dev) := do
  let (got, s) ← s.bread b
  if got then
    if create ∧ s.entry b k = 0 then do
      let (z, s) ← s.newBlock
      let s ← (if z = 0 then s else s.modify b (setWord k z)).brelse b
      return (z, s)
    else do
      let z := s.entry b k
      let s ← s.brelse b
      return (z, s)
  else return (0, s)

/-- The largest file has this many blocks. -/
def maxBlocks : Nat := 7 + 512 + 512 * 512

/-- `_bmap`. A block that is missing, cannot be created, or is behind an index block that cannot be read
is 0. -/
def bmapCreate (create : Bool) (n block : Nat) (s : Dev) : Except Panic (Nat × Dev) :=
  if maxBlocks ≤ block then .error "_bmap: block>big"
  else if block < 7 then s.inodeZone create n block
  else if block < 7 + 512 then do
    let (b, s) ← s.inodeZone create n 7
    if b = 0 then return (0, s) else s.entryZone create b (block - 7)
  else do
    let (b, s) ← s.inodeZone create n 8
    if b = 0 then return (0, s)
    else do
      let (b, s) ← s.entryZone create b ((block - (7 + 512)) / 512)
      if b = 0 then return (0, s) else s.entryZone create b ((block - (7 + 512)) % 512)

def bmap (n block : Nat) (s : Dev) : Except Panic (Nat × Dev) := s.bmapCreate false n block

def createBlock (n block : Nat) (s : Dev) : Except Panic (Nat × Dev) := s.bmapCreate true n block

/-! ## fs/truncate.c -/

/-- The loop of `free_ind` and `free_dind` over the entries of the index block `b`. -/
def freeEntries (free : Nat → Dev → Except Panic Dev) (b : Nat) (s : Dev) : Except Panic Dev := do
  let (got, s) ← s.bread b
  if got then do
    let s ← (List.range 512).foldlM
      (fun s k => if s.entry b k = 0 then .ok s else free (s.entry b k) s) s
    s.brelse b
  else return s

/-- `free_ind`, when `free` is `free_block`, and `free_dind`, when it is `free_ind`. -/
def freeIndex (free : Nat → Dev → Except Panic Dev) (b : Nat) (s : Dev) : Except Panic Dev :=
  if b = 0 then .ok s
  else do
    let s ← s.freeEntries free b
    s.freeBlock b

def freeInd (b : Nat) (s : Dev) : Except Panic Dev := s.freeIndex (fun z s => s.freeBlock z) b

def freeDind (b : Nat) (s : Dev) : Except Panic Dev := s.freeIndex (fun z s => s.freeInd z) b

/-- The loop of `truncate` over the direct zones. -/
def freeDirect (n k : Nat) (s : Dev) : Except Panic Dev :=
  if (s.inode n).iZone k = 0 then .ok s
  else do
    let s ← s.freeBlock ((s.inode n).iZone k)
    return s.setZone n k 0

def truncate (n : Nat) (s : Dev) : Except Panic Dev :=
  if !isReg (s.inode n).iMode && !isDir (s.inode n).iMode then .ok s
  else do
    let s ← (List.range 7).foldlM (fun s k => s.freeDirect n k) s
    let s ← s.freeInd ((s.inode n).iZone 7)
    let s ← s.freeDind ((s.inode n).iZone 8)
    let s := (s.setZone n 7 0).setZone n 8 0
    return s.setInode n { s.inode n with iSize := 0 }

/-- `iput` of an inode that has a device and is no pipe. Writing a block device or the inode itself back
changes nothing here; `Core.iput` has the panic of `write_inode`. -/
def iput (n : Nat) (s : Dev) : Except Panic Dev :=
  if (s.inode n).iCount = 0 then .error "iput: trying to free free inode"
  else if 1 < (s.inode n).iCount then .ok (s.setCount n ((s.inode n).iCount - 1))
  else if (s.inode n).iNlinks = 0 then do
    let s ← s.truncate n
    s.freeInode n
  else .ok (s.setCount n ((s.inode n).iCount - 1))

/-! ## Slots -/

end Dev

/-- A place that holds a zone number: `i_zone[i]`, an entry of the index block in `i_zone[7]`, of the one
in `i_zone[8]`, or of one of its index blocks. -/
inductive Slot where
  | zone (i : Nat)
  | ind (k : Nat)
  | dind (k : Nat)
  | leaf (k l : Nat)
deriving DecidableEq

namespace Slot

def Valid : Slot → Prop
  | zone i => i < 9
  | ind k => k < 512
  | dind k => k < 512
  | leaf k l => k < 512 ∧ l < 512

/-- The zone of the slot is an index block. -/
def Index : Slot → Prop
  | zone i => 7 ≤ i
  | ind _ => False
  | dind _ => True
  | leaf _ _ => False

/-- The slot of a block of the file. -/
def ofBlock (block : Nat) : Slot :=
  if block < 7 then zone block
  else if block < 7 + 512 then ind (block - 7)
  else leaf ((block - (7 + 512)) / 512) ((block - (7 + 512)) % 512)

/-- The slots of the index blocks on the way to a slot. -/
def above : Slot → List Slot
  | zone _ => []
  | ind _ => [zone 7]
  | dind _ => [zone 8]
  | leaf k _ => [zone 8, dind k]

/-- The slot of entry `k` of the index block in a slot. -/
def child : Slot → Nat → Slot
  | zone i, k => if i = 7 then ind k else dind k
  | dind j, k => leaf j k
  | sl, _ => sl

theorem ofBlock_valid {block : Nat} (h : block < Dev.maxBlocks) :
    (ofBlock block).Valid ∧ ¬ (ofBlock block).Index := by
  unfold Dev.maxBlocks at h
  unfold ofBlock
  split
  · exact ⟨by show block < 9; omega, by show ¬ 7 ≤ block; omega⟩
  · split
    · exact ⟨by show block - 7 < 512; omega, id⟩
    · exact ⟨by show _ < 512 ∧ _ < 512; omega, id⟩

theorem above_valid {sl p : Slot} (h : sl.Valid) (hp : p ∈ sl.above) : p.Valid ∧ p.Index := by
  cases sl with
  | zone i => cases hp
  | ind k =>
    cases List.mem_singleton.mp hp
    exact ⟨by show 7 < 9; omega, Nat.le_refl 7⟩
  | dind k =>
    cases List.mem_singleton.mp hp
    exact ⟨by show 8 < 9; omega, by show 7 ≤ 8; omega⟩
  | leaf k l =>
    rcases List.mem_cons.mp hp with rfl | hp
    · exact ⟨by show 8 < 9; omega, by show 7 ≤ 8; omega⟩
    · cases List.mem_singleton.mp hp
      exact ⟨h.1, trivial⟩

theorem child_valid {p : Slot} (hp : p.Index) (hvalid : p.Valid) {k : Nat} (hk : k < 512) :
    (p.child k).Valid ∧ p ∈ (p.child k).above := by
  cases p with
  | zone i =>
    change 7 ≤ i at hp
    change i < 9 at hvalid
    rcases (show i = 7 ∨ i = 8 by omega) with rfl | rfl
    · exact ⟨hk, List.mem_singleton.mpr rfl⟩
    · exact ⟨hk, List.mem_singleton.mpr rfl⟩
  | ind _ => exact hp.elim
  | dind j => exact ⟨⟨hvalid, hk⟩, List.mem_cons_of_mem _ (List.mem_singleton.mpr rfl)⟩
  | leaf _ _ => exact hp.elim

/-- What lies behind an index block lies behind one of its entries. -/
theorem above_child {p sl : Slot} (hsl : sl.Valid) (hp : p ∈ sl.above) :
    ∃ k < 512, sl = p.child k ∨ p.child k ∈ sl.above := by
  cases sl with
  | zone i => cases hp
  | ind k =>
    cases List.mem_singleton.mp hp
    exact ⟨k, hsl, Or.inl rfl⟩
  | dind k =>
    cases List.mem_singleton.mp hp
    exact ⟨k, hsl, Or.inl rfl⟩
  | leaf k l =>
    rcases List.mem_cons.mp hp with rfl | hp
    · exact ⟨k, hsl.1, Or.inr (List.mem_cons_of_mem _ (List.mem_singleton.mpr rfl))⟩
    · cases List.mem_singleton.mp hp
      exact ⟨l, hsl.2, Or.inl rfl⟩

theorem above_trans {p q sl : Slot} (hp : p ∈ q.above) (hq : q ∈ sl.above) : p ∈ sl.above := by
  cases sl with
  | zone i => cases hq
  | ind k =>
    cases List.mem_singleton.mp hq
    cases hp
  | dind k =>
    cases List.mem_singleton.mp hq
    cases hp
  | leaf k l =>
    rcases List.mem_cons.mp hq with rfl | hq
    · cases hp
    · cases List.mem_singleton.mp hq
      cases List.mem_singleton.mp hp
      exact List.mem_cons_self

theorem not_above_self (sl : Slot) : sl ∉ sl.above := by
  cases sl <;> simp [above]

/-- The entries of an index block lie side by side. -/
theorem child_apart {p : Slot} (hp : p.Index) {j k : Nat} (hjk : j ≠ k) {sl : Slot}
    (hj : sl = p.child j ∨ p.child j ∈ sl.above) : ¬ (sl = p.child k ∨ p.child k ∈ sl.above) := by
  have hkj := hjk.symm
  cases p with
  | zone i =>
    by_cases hi : i = 7
    · simp only [child, hi, if_true] at hj ⊢
      cases sl <;> simp_all [above]
    · simp only [child, hi, if_false] at hj ⊢
      cases sl <;> simp_all [above]
  | ind _ => exact hp.elim
  | dind i =>
    simp only [child] at hj ⊢
    cases sl <;> simp_all [above]
  | leaf _ _ => exact hp.elim

/-- An entry is one of one index block. -/
theorem child_inj_parent {q q' : Slot} {k k' : Nat} (hq : q.Index) (hvalid : q.Valid) (hq' : q'.Index)
    (hvalid' : q'.Valid) (h : q.child k = q'.child k') : q = q' ∧ k = k' := by
  have htop : ∀ i, Slot.Valid (.zone i) → Slot.Index (.zone i) → i = 7 ∨ i = 8 := by
    intro i hi hi'
    change i < 9 at hi
    change 7 ≤ i at hi'
    omega
  cases q with
  | zone i =>
    cases q' with
    | zone i' => rcases htop i hvalid hq with rfl | rfl <;> rcases htop i' hvalid' hq' with rfl | rfl <;>
        simp_all [child]
    | ind _ => exact hq'.elim
    | dind j => rcases htop i hvalid hq with rfl | rfl <;> simp [child] at h
    | leaf _ _ => exact hq'.elim
  | ind _ => exact hq.elim
  | dind j =>
    cases q' with
    | zone i' => rcases htop i' hvalid' hq' with rfl | rfl <;> simp [child] at h
    | ind _ => exact hq'.elim
    | dind j' =>
      simp only [child, Slot.leaf.injEq] at h
      exact ⟨by rw [h.1], h.2⟩
    | leaf _ _ => exact hq'.elim
  | leaf _ _ => exact hq.elim

theorem child_ne_zone {q : Slot} {k i : Nat} (hq : q.Index) : q.child k ≠ .zone i := by
  cases q with
  | zone j =>
    by_cases hj : j = 7
    · simp [child, hj]
    · simp [child, hj]
  | ind _ => exact hq.elim
  | dind j => simp [child]
  | leaf _ _ => exact hq.elim

/-- What lies above an entry: its index block, and what lies above that. -/
theorem above_of_child {p q : Slot} (hp : p.Index) (hvalid : p.Valid) {k : Nat} (hq : q ∈ (p.child k).above) :
    q = p ∨ q ∈ p.above := by
  cases p with
  | zone i =>
    change 7 ≤ i at hp
    change i < 9 at hvalid
    rcases (show i = 7 ∨ i = 8 by omega) with rfl | rfl
    · exact Or.inl (List.mem_singleton.mp hq)
    · exact Or.inl (List.mem_singleton.mp hq)
  | ind _ => exact hp.elim
  | dind j =>
    rcases List.mem_cons.mp hq with rfl | hq
    · exact Or.inr (List.mem_singleton.mpr rfl)
    · exact Or.inl (List.mem_singleton.mp hq)
  | leaf _ _ => exact hp.elim

/-- An entry of an index block lies behind it. -/
theorem child_not_above {p : Slot} (hp : p.Index) (hvalid : p.Valid) {k : Nat} (hk : k < 512) :
    p.child k ≠ p ∧ p.child k ∉ p.above := by
  have hmem := (child_valid hp hvalid hk).2
  refine ⟨fun heq => ?_, fun habove => not_above_self p (above_trans hmem habove)⟩
  rw [heq] at hmem
  exact not_above_self p hmem

end Slot

namespace Dev

/-- Entry `k` of the index block in zone `z`, if there is one. -/
def entryOf (s : Dev) (z k : Nat) : Nat := if z = 0 then 0 else word (s.contents z) k

/-- The zone number in a slot of inode `n`. -/
def slotZone (s : Dev) (n : Nat) : Slot → Nat
  | .zone i => (s.inode n).iZone i
  | .ind k => s.entryOf ((s.inode n).iZone 7) k
  | .dind k => s.entryOf ((s.inode n).iZone 8) k
  | .leaf k l => s.entryOf (s.entryOf ((s.inode n).iZone 8) k) l

/-- Byte `p` of the file of inode `n`; a block that is missing reads as zeroes. -/
def fileByte (s : Dev) (n p : Nat) : UInt8 :=
  let z := s.slotZone n (Slot.ofBlock (p / 1024))
  if z = 0 then 0 else s.contents z (p % 1024)

/-- The way of `_bmap` to the block of slot `sl`, through the index blocks above it. What `P` says of the zone of a
slot and the state there goes on to the next slot when the zone is missing, and when its entry is looked at. -/
theorem bmapCreate_rule {create : Bool} {n block : Nat} {s : Dev} {P : Slot → Nat × Dev → Prop} {Q : Panic → Prop}
    {sl : Slot} (hsl : Slot.ofBlock block = sl) (hblock : block < maxBlocks)
    (hzone : ∀ i, sl = .zone i ∨ .zone i ∈ sl.above → Post (s.inodeZone create n i) (P (.zone i)) Q)
    (hnone : ∀ p ∈ sl.above, ∀ k < 512, ∀ s', P p (0, s') → P (p.child k) (0, s'))
    (hentry : ∀ p ∈ sl.above, ∀ k < 512, sl = p.child k ∨ p.child k ∈ sl.above → ∀ b s', b ≠ 0 → P p (b, s') →
      Post (s'.entryZone create b k) (P (p.child k)) Q) :
    Post (s.bmapCreate create n block) (P sl) Q := by
  have hmax : block < 7 + 512 + 512 * 512 := hblock
  unfold bmapCreate
  rw [if_neg (Nat.not_le.mpr hblock)]
  unfold Slot.ofBlock at hsl
  split
  · next hdirect =>
    rw [if_pos hdirect] at hsl
    subst hsl
    exact hzone block (Or.inl rfl)
  · next hdirect =>
    rw [if_neg hdirect] at hsl
    split
    · next hind =>
      rw [if_pos hind] at hsl
      subst hsl
      have hk : block - 7 < 512 := by omega
      have htop : Slot.zone 7 ∈ (Slot.ind (block - 7)).above := List.mem_singleton.mpr rfl
      refine Post.bind (hzone 7 (Or.inr htop)) ?_
      rintro ⟨b, s₁⟩ h₁
      dsimp only
      split
      · next hb =>
        rw [hb] at h₁
        exact Post.ret (hnone _ htop _ hk s₁ h₁)
      · next hb => exact hentry _ htop _ hk (Or.inl rfl) b s₁ hb h₁
    · next hind =>
      rw [if_neg hind] at hsl
      have hk : (block - (7 + 512)) / 512 < 512 := by omega
      have hl : (block - (7 + 512)) % 512 < 512 := by omega
      generalize (block - (7 + 512)) / 512 = k at *
      generalize (block - (7 + 512)) % 512 = l at *
      subst hsl
      have htop : Slot.zone 8 ∈ (Slot.leaf k l).above := List.mem_cons_self
      have hdind : Slot.dind k ∈ (Slot.leaf k l).above := List.mem_cons_of_mem _ (List.mem_singleton.mpr rfl)
      refine Post.bind (hzone 8 (Or.inr htop)) ?_
      rintro ⟨b, s₁⟩ h₁
      dsimp only
      split
      · next hb =>
        rw [hb] at h₁
        exact Post.ret (hnone (.dind k) hdind l hl s₁ (hnone _ htop k hk s₁ h₁))
      · next hb =>
        refine Post.bind (hentry _ htop k hk (Or.inr hdind) b s₁ hb h₁) ?_
        rintro ⟨b₂, s₂⟩ h₂
        dsimp only
        split
        · next hb₂ =>
          rw [hb₂] at h₂
          exact Post.ret (hnone (.dind k) hdind l hl s₂ h₂)
        · next hb₂ => exact hentry (.dind k) hdind l hl (Or.inl rfl) b₂ s₂ hb₂ h₂

end Dev

end Linux011.Fs
