import Linux011.Fs.Bitmap

/-!
# Loading a super block

`read_super` of `fs/super.c`, with `put_super` and `check_disk_change`, for one device, whose buffers
are a `Cache`. All numbers come from block 1 of the device. The arrays `s_imap` and `s_zmap` have
eight elements each; a store behind the end of one and an access through `NULL` are errors of their
own. A super block is its index in the table, and a buffer is its block number.
-/

namespace Linux011.Fs

open Linux011.Lib

def nrSuper : Nat := 8
def iMapSlots : Nat := 8
def zMapSlots : Nat := 8
def superMagic : Nat := 0x137F

/-- How `read_super` can go wrong: in a panic, in a store into element `i` of an array of eight, or in
an access through `NULL`. -/
inductive SuperFault where
  | panic (m : Panic)
  | bounds (i : Nat)
  | null

/-- `struct super_block`, without the queue of its lock. -/
structure SuperBlock where
  sNinodes : Nat
  sNzones : Nat
  sImapBlocks : Nat
  sZmapBlocks : Nat
  sFirstdatazone : Nat
  sLogZoneSize : Nat
  sMaxSize : Nat
  sMagic : Nat
  sImap : Nat → Option Nat
  sZmap : Nat → Option Nat
  sDev : Nat
  sIsup : Option Nat
  sImount : Option Nat
  sTime : Nat
  sLock : Bool
  sRdOnly : Bool
  sDirt : Bool

/-- `*((struct d_super_block *) s) = *((struct d_super_block *) bh->b_data);` -/
def SuperBlock.fromDisk (data : Nat → UInt8) (p : SuperBlock) : SuperBlock :=
  { p with
    sNinodes := Dev.word data 0
    sNzones := Dev.word data 1
    sImapBlocks := Dev.word data 2
    sZmapBlocks := Dev.word data 3
    sFirstdatazone := Dev.word data 4
    sLogZoneSize := Dev.word data 5
    sMaxSize := Dev.word data 6 + 65536 * Dev.word data 7
    sMagic := Dev.word data 8 }

/-- The table of super blocks. `changed` is what `floppy_change` finds out. -/
structure SuperTable where
  cache : Cache
  superBlock : Nat → SuperBlock
  rootDev : Nat
  changed : Bool

namespace SuperTable

def setSuper (s : SuperTable) (k : Nat) (p : SuperBlock) : SuperTable :=
  { s with superBlock := Function.update s.superBlock k p }

def bread (b : Nat) (c : Cache) : Except SuperFault (Bool × Cache) :=
  (c.bread b).mapError .panic

/-- `brelse`, also of `NULL`. -/
def brelse (b : Option Nat) (c : Cache) : Except SuperFault Cache :=
  match b with
  | none => .ok c
  | some b => (c.brelse b).mapError .panic

/-- `for(i=0;i<I_MAP_SLOTS;i++) brelse(s->s_imap[i]);`, and the same with `s_zmap`. -/
def brelseAll (slots : Nat) (map : Nat → Option Nat) (c : Cache) : Except SuperFault Cache :=
  (List.range slots).foldlM (fun c i => brelse (map i) c) c

def getSuper (s : SuperTable) (dev : Nat) : Option Nat :=
  if dev = 0 then none else (List.range nrSuper).find? fun k => (s.superBlock k).sDev == dev

/-! ## `check_disk_change` -/

def putSuper (dev : Nat) (s : SuperTable) : Except SuperFault SuperTable :=
  if dev = s.rootDev then .ok s
  else
    match s.getSuper dev with
    | none => .ok s
    | some k =>
      let p := s.superBlock k
      if p.sImount.isSome then .ok s
      else do
        let cache ← brelseAll iMapSlots p.sImap s.cache
        let cache ← brelseAll zMapSlots p.sZmap cache
        return { s with cache }.setSuper k { p with sDev := 0, sLock := false }

/-- `invalidate_buffers` -/
def invalidateBuffers (c : Cache) : Cache :=
  { c with buffer := fun b => (c.buffer b).map fun h => { h with uptodate := false, dirt := false } }

def checkDiskChange (dev : Nat) (s : SuperTable) : Except SuperFault SuperTable :=
  if dev / 256 ≠ 2 then .ok s
  else if !s.changed then .ok s
  else do
    let s ← (List.range nrSuper).foldlM
      (fun s k => if (s.superBlock k).sDev = dev then s.putSuper dev else .ok s) s
    return { s with cache := invalidateBuffers s.cache }

/-! ## `read_super` -/

/-- `for (i=0 ; i < n ; i++) if ((map[i]=bread(dev,block))) block++; else break;`, with `n` turns to go. -/
def loadMap : (n i : Nat) → (map : Nat → Option Nat) → (block : Nat) → Cache →
    Except SuperFault ((Nat → Option Nat) × Nat × Cache)
  | 0, _, map, block, c => .ok (map, block, c)
  | n + 1, i, map, block, c => do
    let (got, c) ← bread block c
    if 8 ≤ i then .error (.bounds i)
    else if got then loadMap n (i + 1) (Function.update map i (some block)) (block + 1) c
    else .ok (Function.update map i none, block, c)

/-- `s->s_dev=0; free_super(s); return NULL;` -/
def giveUp (k : Nat) (p : SuperBlock) (s : SuperTable) : Option Nat × SuperTable :=
  (none, s.setSuper k { p with sDev := 0, sLock := false })

/-- `map[0]->b_data[0] |= 1;` -/
def setFirst (b : Nat) (c : Cache) : Cache :=
  c.set b { c.head b with data := Function.update (c.head b).data 0 ((c.head b).data 0 ||| 1) }

/-- `read_super` after its two loops have come to `block`. -/
def checkMaps (k : Nat) (p : SuperBlock) (block : Nat) (s : SuperTable) :
    Except SuperFault (Option Nat × SuperTable) :=
  if block ≠ 2 + p.sImapBlocks + p.sZmapBlocks then do
    let cache ← brelseAll iMapSlots p.sImap s.cache
    let cache ← brelseAll zMapSlots p.sZmap cache
    return { s with cache }.giveUp k p
  else
    match p.sImap 0, p.sZmap 0 with
    | some b, some b' =>
      .ok (some k, { s with cache := setFirst b' (setFirst b s.cache) }.setSuper k { p with sLock := false })
    | _, _ => .error .null

/-- `read_super` from the check of the magic number on. -/
def readMaps (k : Nat) (p : SuperBlock) (s : SuperTable) : Except SuperFault (Option Nat × SuperTable) :=
  if p.sMagic ≠ superMagic then .ok (s.giveUp k p)
  else do
    let (sImap, block, cache) ← loadMap p.sImapBlocks 0 (fun _ => none) 2 s.cache
    let (sZmap, block, cache) ← loadMap p.sZmapBlocks 0 (fun _ => none) block cache
    checkMaps k { p with sImap, sZmap } block { s with cache }

/-- `read_super` from `lock_super` on, for the slot `k`. -/
def readSlot (dev k : Nat) (s : SuperTable) : Except SuperFault (Option Nat × SuperTable) := do
  let p := { s.superBlock k with
    sDev := dev, sIsup := none, sImount := none, sTime := 0, sRdOnly := false, sDirt := false, sLock := true }
  let (got, cache) ← bread 1 s.cache
  if !got then return { s with cache }.giveUp k p
  else
    let p := p.fromDisk (cache.head 1).data
    let cache ← brelse (some 1) cache
    readMaps k p { s with cache }

def readSuper (dev : Nat) (s : SuperTable) : Except SuperFault (Option Nat × SuperTable) :=
  if dev = 0 then .ok (none, s)
  else do
    let s ← s.checkDiskChange dev
    match s.getSuper dev with
    | some k => return (some k, s)
    | none =>
      match (List.range nrSuper).find? fun k => (s.superBlock k).sDev == 0 with
      | none => return (none, s)
      | some k => s.readSlot dev k

/-! ## Single steps -/

/-- `bread` gets the block. -/
def CanRead (c : Cache) (b : Nat) : Prop := (c.head b).uptodate = true ∨ c.works b = true

/-- The same bytes in the same blocks, and the same blocks can be read. -/
structure Keeps (c c' : Cache) : Prop where
  same : Cache.Same c c'
  read : ∀ b, CanRead c' b ↔ CanRead c b

variable {c c' c'' : Cache} {s s' : SuperTable} {b k dev : Nat}

theorem Keeps.refl (c : Cache) : Keeps c c := ⟨.refl c, fun _ => Iff.rfl⟩

theorem Keeps.trans (h : Keeps c c') (h' : Keeps c' c'') : Keeps c c'' :=
  ⟨h.same.trans h'.same, fun b => (h'.read b).trans (h.read b)⟩

/-- A change of reference counts alone. -/
theorem Keeps.of_uptodate (h : Cache.Same c c') (hup : ∀ b, (c'.head b).uptodate = true → CanRead c b) :
    Keeps c c' := by
  refine ⟨h, fun b => ⟨?_, ?_⟩⟩
  · rintro (hb | hb)
    · exact hup b hb
    · exact .inr (h.works ▸ hb)
  · rintro (hb | hb)
    · exact .inl (h.uptodate b hb)
    · exact .inr (h.works.symm ▸ hb)

theorem keeps_count (n : Nat) : Keeps c (c.set b { c.head b with count := n }) := by
  refine .of_uptodate (Cache.same_count n) fun b' hb' => .inl ?_
  rw [Cache.head_set] at hb'
  split at hb'
  · next heq => exact heq ▸ hb'
  · exact hb'

theorem keeps_getblk : Keeps c (c.getblk b) := by
  rw [Cache.getblk_eq]
  exact keeps_count _

theorem keeps_read : Keeps c (c.llRwBlock .read b) := by
  refine .of_uptodate Cache.same_read fun b' hb' => ?_
  unfold Cache.llRwBlock at hb'
  simp only at hb'
  split at hb'
  · exact .inl hb'
  · split at hb'
    · next hworks =>
      rw [Cache.head_set] at hb'
      split at hb'
      · next heq => exact .inr (heq ▸ hworks)
      · exact .inl hb'
    · rw [Cache.head_set] at hb'
      split at hb'
      · next heq => exact .inl (heq ▸ hb')
      · exact .inl hb'

theorem brelse_spec {n : Nat} (hheld : c.held b = n + 1) :
    ∃ c', brelse (some b) c = .ok c' ∧ Keeps c c' ∧ c'.held = Function.update c.held b n := by
  have hcount : (c.head b).count ≠ 0 := fun h0 => by
    rw [Cache.held, h0] at hheld
    omega
  refine ⟨c.set b { c.head b with count := (c.head b).count - 1 }, ?_, keeps_count _, ?_⟩
  · unfold brelse Cache.brelse
    simp only [if_neg hcount]
    rfl
  · have hpred : (c.head b).count - 1 = n := by
      change (c.head b).count = n + 1 at hheld
      omega
    rw [Cache.set_held, hpred]

theorem bread_spec (b : Nat) (c : Cache) : ∃ r, bread b c = .ok r ∧ Keeps c r.2 ∧
    (r.1 = true ∧ CanRead c b ∧ (r.2.head b).uptodate = true ∧ r.2.held = Function.update c.held b (c.held b + 1) ∨
      r.1 = false ∧ ¬ CanRead c b ∧ r.2.held = c.held) := by
  have hget : Keeps c (c.getblk b) := keeps_getblk
  have hread : Keeps c ((c.getblk b).llRwBlock .read b) := hget.trans keeps_read
  have hheld : ((c.getblk b).llRwBlock .read b).held = Function.update c.held b (c.held b + 1) := by
    rw [Cache.held_read, Cache.held_getblk]
  unfold bread Cache.bread
  simp only
  split
  · next hup =>
    exact ⟨_, rfl, hget, .inl ⟨rfl, (hget.read b).mp (.inl hup), hup, Cache.held_getblk b⟩⟩
  · split
    · next hup => exact ⟨_, rfl, hread, .inl ⟨rfl, (hread.read b).mp (.inl hup), hup, hheld⟩⟩
    · next hbad =>
      have hcount : ((c.getblk b).llRwBlock .read b).held b = c.held b + 1 := by
        rw [hheld, Function.update_self]
      obtain ⟨c', hc', hkeep, hheld'⟩ := brelse_spec hcount
      have hok : ((c.getblk b).llRwBlock .read b).brelse b = .ok c' := by
        unfold brelse at hc'
        simp only at hc'
        cases hrel : ((c.getblk b).llRwBlock .read b).brelse b with
        | ok a =>
          rw [hrel] at hc'
          cases hc'
          rfl
        | error e =>
          rw [hrel] at hc'
          cases hc'
      rw [hok]
      refine ⟨(false, c'), rfl, hread.trans hkeep, .inr ⟨rfl, fun hcan => ?_, ?_⟩⟩
      · rcases (hread.read b).mpr hcan with hup | hworks
        · exact hbad hup
        · rw [keeps_read.same.works] at hworks
          exact hbad (Cache.uptodate_read hworks)
      · rw [hheld', hheld, Function.update_idem, Function.update_eq_self]

/-! ## The loops -/

/-- The references to the `m` blocks from `a` on are `d` more than before. -/
def Gains (a m : Nat) (c c' : Cache) : Prop :=
  ∀ b, c'.held b = c.held b + if a ≤ b ∧ b < a + m then 1 else 0

/-- Of `n` blocks from `block` on the first `m` can be read, and the next one, if there is one, cannot. -/
structure Reads (c : Cache) (block n m : Nat) : Prop where
  le : m ≤ n
  read : ∀ j < m, CanRead c (block + j)
  stop : m < n → ¬ CanRead c (block + m)

/-- The loop stores inside of its array: there are not more blocks than elements, or it meets a block
that cannot be read. -/
def Inside (c : Cache) (block n : Nat) : Prop :=
  n ≤ 8 ∨ ∃ j < 8, ¬ CanRead c (block + j)

theorem loadMap_spec {n i : Nat} {map : Nat → Option Nat} {block : Nat} (hmap : ∀ j, i ≤ j → map j = none)
    (hin : i + n ≤ 8 ∨ ∃ j, i + j < 8 ∧ ¬ CanRead c (block + j)) :
    ∃ map' m c', loadMap n i map block c = .ok (map', block + m, c') ∧ Reads c block n m ∧ (0 < m → i + m ≤ 8) ∧
      Keeps c c' ∧ Gains block m c c' ∧ (∀ b, block ≤ b → b < block + m → (c'.head b).uptodate = true) ∧
      ∀ j, map' j = if i ≤ j ∧ j < i + m then some (block + (j - i)) else map j := by
  induction n generalizing i map block c with
  | zero =>
    refine ⟨map, 0, c, rfl, ⟨le_rfl, by simp, by simp⟩, by simp, .refl c, fun b => ?_, fun b => by omega, fun j => ?_⟩
    · rw [if_neg (by omega), Nat.add_zero]
    · rw [if_neg (by omega)]
  | succ n ih =>
    obtain ⟨⟨got, c₁⟩, hbread, hkeep, hgot⟩ := bread_spec block c
    have hi : ¬ 8 ≤ i := by
      rcases hin with hle | ⟨j, hj, -⟩
      · omega
      · omega
    rcases hgot with ⟨hgot, hcan, hup, hheld⟩ | ⟨hgot, hcan, hheld⟩
    · -- the block is read, and the loop goes on with the next slot
      cases hgot
      have hin₁ : i + 1 + n ≤ 8 ∨ ∃ j, i + 1 + j < 8 ∧ ¬ CanRead c₁ (block + 1 + j) := by
        rcases hin with hle | ⟨j, hj, hbad⟩
        · exact .inl (by omega)
        · cases j with
          | zero => exact absurd hcan hbad
          | succ j =>
            refine .inr ⟨j, by omega, fun hread => hbad ?_⟩
            rw [Nat.add_right_comm, Nat.add_assoc] at hread
            exact (hkeep.read _).mp hread
      have hmap₁ : ∀ j, i + 1 ≤ j → Function.update map i (some block) j = none := fun j hj => by
        rw [Function.update_of_ne (by omega)]
        exact hmap j (by omega)
      obtain ⟨map', m, c', hrun, hreads, hle, hkeep', hgain, hready, hmap'⟩ := ih hmap₁ hin₁
      refine ⟨map', m + 1, c', ?_, ⟨by have := hreads.le; omega, fun j hj => ?_, fun hm => ?_⟩, fun _ => ?_,
        hkeep.trans hkeep', fun b => ?_, fun b hb hb' => ?_, fun j => ?_⟩
      · rw [loadMap, hbread]
        change (if 8 ≤ i then _ else if true = true then loadMap n (i + 1) _ (block + 1) c₁ else _) = _
        rw [if_neg hi, if_pos rfl, hrun, Nat.add_assoc, Nat.add_comm 1 m]
      · cases j with
        | zero => exact hcan
        | succ j =>
          have hread := (hkeep.read _).mp (hreads.read j (by omega))
          rwa [Nat.add_assoc, Nat.add_comm 1 j] at hread
      · have hstop := hreads.stop (by omega)
        rw [hkeep.read, Nat.add_assoc, Nat.add_comm 1 m] at hstop
        exact hstop
      · rcases Nat.eq_zero_or_pos m with hm | hm
        · omega
        · have := hle hm
          omega
      · have hself := hgain b
        rw [hheld, Function.update_apply] at hself
        rw [hself]
        by_cases hb : b = block
        · rw [if_pos hb, if_neg (by omega), if_pos (by omega), hb]
        · rw [if_neg hb]
          congr 1
          by_cases hin : block + 1 ≤ b ∧ b < block + 1 + m
          · rw [if_pos hin, if_pos (by omega)]
          · rw [if_neg hin, if_neg (by omega)]
      · by_cases heq : b = block
        · exact hkeep'.same.uptodate b (heq ▸ hup)
        · exact hready b (by omega) (by omega)
      · rw [hmap' j]
        by_cases hj : j = i
        · rw [if_neg (by omega), if_pos (by omega), hj, Function.update_self, Nat.sub_self, Nat.add_zero]
        · rw [Function.update_of_ne hj]
          by_cases hin : i + 1 ≤ j ∧ j < i + 1 + m
          · rw [if_pos hin, if_pos (by omega)]
            congr 1
            omega
          · rw [if_neg hin, if_neg (by omega)]
    · -- the block cannot be read, and the loop stops with an empty slot
      cases hgot
      refine ⟨Function.update map i none, 0, c₁, ?_, ⟨by omega, by simp, fun _ => hcan⟩, by simp, hkeep, fun b => ?_, fun b => by omega,
        fun j => ?_⟩
      · rw [loadMap, hbread]
        exact (if_neg hi).trans (if_neg (by decide))
      · rw [if_neg (by omega), Nat.add_zero, hheld]
      · rw [if_neg (by omega), Function.update_apply]
        split
        · next heq => rw [heq, hmap i le_rfl]
        · rfl

/-- Otherwise it stores behind the end of the array. -/
theorem loadMap_bounds {n i : Nat} {map : Nat → Option Nat} {block : Nat} (hi : i ≤ 8) (hn : 8 < i + n)
    (hread : ∀ j, i + j < 8 → CanRead c (block + j)) : ∃ e, loadMap n i map block c = .error e := by
  induction n generalizing i map block c with
  | zero => omega
  | succ n ih =>
    obtain ⟨⟨got, c₁⟩, hbread, hkeep, hgot⟩ := bread_spec block c
    by_cases h8 : 8 ≤ i
    · refine ⟨.bounds i, ?_⟩
      rw [loadMap, hbread]
      exact if_pos h8
    · rcases hgot with ⟨hgot, -, -, -⟩ | ⟨-, hcan, -⟩
      · cases hgot
        obtain ⟨e, he⟩ : ∃ e, loadMap n (i + 1) (Function.update map i (some block)) (block + 1) c₁ = .error e := by
          refine ih (by omega) (by omega) fun j hj => ?_
          rw [hkeep.read, Nat.add_assoc, Nat.add_comm 1 j]
          exact hread (j + 1) (by omega)
        refine ⟨e, ?_⟩
        rw [loadMap, hbread]
        exact (if_neg h8).trans ((if_pos rfl).trans he)
      · exact absurd (hread 0 (by omega)) hcan

/-- The buffers of `m` blocks from `a` on are given back. -/
theorem brelseAll_spec {slots a m : Nat} {map : Nat → Option Nat} (hm : m ≤ slots)
    (hmap : ∀ i < slots, map i = if i < m then some (a + i) else none)
    (hheld : ∀ b, a ≤ b → b < a + m → 0 < c.held b) :
    ∃ c', brelseAll slots map c = .ok c' ∧ Keeps c c' ∧ Gains a m c' c := by
  have hpost : Post (brelseAll slots map c)
      (fun c' => Keeps c c' ∧ Gains a (min slots m) c' c) (fun _ => False) := by
    apply Post.foldlM_range (I := fun k c' => Keeps c c' ∧ Gains a (min k m) c' c)
    · intro k hk c₁ ⟨hkeep, hgain⟩
      by_cases hkm : k < m
      · rw [hmap k hk, if_pos hkm]
        have hself := hgain (a + k)
        rw [if_neg (by omega), Nat.add_zero] at hself
        obtain ⟨n, hn⟩ : ∃ n, c₁.held (a + k) = n + 1 :=
          Nat.exists_eq_succ_of_ne_zero (by have := hheld (a + k) (by omega) (by omega); omega)
        obtain ⟨c₂, hrel, hkeep₂, hheld₂⟩ := brelse_spec hn
        rw [hrel]
        refine Post.ret ⟨hkeep.trans hkeep₂, fun b => ?_⟩
        rw [hheld₂, Function.update_apply]
        by_cases hb : b = a + k
        · rw [if_pos hb, if_pos (by omega), hb, hself, hn]
        · rw [if_neg hb, hgain b]
          congr 1
          by_cases hin : a ≤ b ∧ b < a + min k m
          · rw [if_pos hin, if_pos (by omega)]
          · rw [if_neg hin, if_neg (by omega)]
      · rw [hmap k hk, if_neg hkm]
        refine Post.ret ⟨hkeep, ?_⟩
        rwa [show min (k + 1) m = min k m by omega]
    · refine ⟨.refl c, fun b => ?_⟩
      rw [if_neg (by omega), Nat.add_zero]
  obtain ⟨c', hrun, hkeep, hgain⟩ := hpost.returns
  rw [Nat.min_eq_right hm] at hgain
  exact ⟨c', hrun, hkeep, hgain⟩

/-! ## What `read_super` is to come to -/

/-- The super block in slot `k` has bitmaps of both kinds, and references to their buffers. -/
structure Loaded (s : SuperTable) (k : Nat) : Prop where
  imap_pos : 1 ≤ (s.superBlock k).sImapBlocks
  imap_le : (s.superBlock k).sImapBlocks ≤ iMapSlots
  zmap_pos : 1 ≤ (s.superBlock k).sZmapBlocks
  zmap_le : (s.superBlock k).sZmapBlocks ≤ zMapSlots
  imap : ∀ i < iMapSlots,
    (s.superBlock k).sImap i = if i < (s.superBlock k).sImapBlocks then some (2 + i) else none
  zmap : ∀ i < zMapSlots, (s.superBlock k).sZmap i =
    if i < (s.superBlock k).sZmapBlocks then some (2 + (s.superBlock k).sImapBlocks + i) else none
  held : ∀ b, 2 ≤ b → b < 2 + ((s.superBlock k).sImapBlocks + (s.superBlock k).sZmapBlocks) → 0 < s.cache.held b

/-- The super blocks of the device that are in the table: one at most, and it is loaded. -/
structure Kept (s : SuperTable) (dev : Nat) : Prop where
  loaded : ∀ k < nrSuper, (s.superBlock k).sDev = dev → s.Loaded k
  unique : ∀ k < nrSuper, ∀ l < nrSuper, (s.superBlock k).sDev = dev → (s.superBlock l).sDev = dev → k = l

/-- It returns a super block of the device that is loaded, and if it has loaded it itself, the bitmaps are up to
date. Or it returns `NULL`, with all references given back and the slot free. The table stays as it has to be. -/
def Meets (s : SuperTable) (dev : Nat) : Except SuperFault (Option Nat × SuperTable) → Prop
  | .error _ => False
  | .ok (some k, s') => s'.Kept dev ∧ k < nrSuper ∧ (s'.superBlock k).sDev = dev ∧ s'.Loaded k ∧
      (s.getSuper dev = none → ∀ b, 2 ≤ b →
        b < 2 + ((s'.superBlock k).sImapBlocks + (s'.superBlock k).sZmapBlocks) → (s'.cache.head b).uptodate = true)
  | .ok (none, s') => s'.Kept dev ∧ s'.cache.held = s.cache.held ∧
      ∀ k, (s'.superBlock k).sDev = (s.superBlock k).sDev ∧
        ((s'.superBlock k).sLock = true → (s.superBlock k).sLock = true)

/-- Numbers of bitmap blocks that `read_super` can cope with. -/
structure MapsFit (c : Cache) (imapBlocks zmapBlocks : Nat) : Prop where
  imap : Inside c 2 imapBlocks
  zmap : (∀ j < imapBlocks, CanRead c (2 + j)) → Inside c (2 + imapBlocks) zmapBlocks
  pos : (∀ j < imapBlocks, CanRead c (2 + j)) → (∀ j < zmapBlocks, CanRead c (2 + imapBlocks + j)) →
    1 ≤ imapBlocks ∧ 1 ≤ zmapBlocks

/-! ## The bitmaps -/

theorem superBlock_setSuper (p : SuperBlock) (j : Nat) :
    (s.setSuper k p).superBlock j = if j = k then p else s.superBlock j := by
  by_cases hj : j = k
  · rw [hj, if_pos rfl]
    exact Function.update_self ..
  · rw [if_neg hj]
    exact Function.update_of_ne hj ..

/-- The slot is free again. -/
theorem meets_giveUp {r : SuperTable} {p : SuperBlock} (hdev : dev ≠ 0) (hfree : (s.superBlock k).sDev = 0)
    (hnone : ∀ j < nrSuper, (s.superBlock j).sDev ≠ dev)
    (hsuper : r.superBlock = s.superBlock) (hheld : r.cache.held = s.cache.held) :
    s.Meets dev (.ok (r.giveUp k p)) := by
  have hnone₁ : ∀ j < nrSuper, ((r.setSuper k { p with sDev := 0, sLock := false }).superBlock j).sDev ≠ dev := by
    intro j hj
    rw [superBlock_setSuper, hsuper]
    split
    · exact hdev.symm
    · exact hnone j hj
  refine ⟨⟨fun j hj hjdev => absurd hjdev (hnone₁ j hj), fun j hj _ _ hjdev => absurd hjdev (hnone₁ j hj)⟩, hheld,
    fun j => ?_⟩
  rw [superBlock_setSuper, hsuper]
  split
  · next heq =>
    rw [heq, hfree]
    exact ⟨rfl, fun h => by cases h⟩
  · exact ⟨rfl, id⟩

theorem held_setFirst (b : Nat) : (setFirst b c).held = c.held := by
  rw [setFirst, Cache.set_held]
  exact Function.update_eq_self b c.held

theorem uptodate_setFirst (b b' : Nat) : ((setFirst b c).head b').uptodate = (c.head b').uptodate := by
  rw [setFirst, Cache.head_set]
  split
  · next heq => rw [heq]
  · rfl

theorem Gains.add {a m n : Nat} (h : Gains a m c c') (h' : Gains (a + m) n c' c'') : Gains a (m + n) c c'' := by
  intro b
  rw [h' b, h b, Nat.add_assoc]
  congr 1
  split <;> split <;> split <;> omega

/-- The references that two loops have taken are given back. -/
theorem release_spec {imap zmap : Nat → Option Nat} {m n : Nat} (hm : m ≤ 8) (hn : n ≤ 8)
    (himap : ∀ i < 8, imap i = if i < m then some (2 + i) else none)
    (hzmap : ∀ i < 8, zmap i = if i < n then some (2 + m + i) else none) (hgain : Gains 2 (m + n) c c') :
    ∃ c₁ c₂, brelseAll iMapSlots imap c' = .ok c₁ ∧ brelseAll zMapSlots zmap c₁ = .ok c₂ ∧ Keeps c' c₂ ∧
      c₂.held = c.held := by
  obtain ⟨c₁, hrun₁, hkeep₁, hgain₁⟩ := brelseAll_spec (c := c') hm himap fun b hb hb' => by
    have := hgain b
    rw [if_pos (by omega)] at this
    omega
  obtain ⟨c₂, hrun₂, hkeep₂, hgain₂⟩ := brelseAll_spec (c := c₁) hn hzmap fun b hb hb' => by
    have h := hgain b
    have h₁ := hgain₁ b
    rw [if_pos (by omega)] at h
    rw [if_neg (by omega)] at h₁
    omega
  refine ⟨c₁, c₂, hrun₁, hrun₂, hkeep₁.trans hkeep₂, funext fun b => ?_⟩
  have h := hgain b
  have h₁ := hgain₁ b
  have h₂ := hgain₂ b
  split at h <;> split at h₁ <;> split at h₂ <;> omega

/-- After a block that cannot be read the second loop comes to the same block. -/
theorem Reads.zero {n m : Nat} {block : Nat} (h : Reads c block n m) (hbad : ¬ CanRead c block) : m = 0 := by
  rcases Nat.eq_zero_or_pos m with hm | hm
  · exact hm
  · exact absurd (h.read 0 hm) hbad

theorem not_inside {block n : Nat} (h : ¬ Inside c block n) : 8 < n ∧ ∀ j < 8, CanRead c (block + j) := by
  unfold Inside at h
  push Not at h
  exact h

/-- A loop of `read_super`, from the start of its array. -/
theorem loadMap_inside {block n : Nat} (hin : Inside c block n) :
    ∃ map m c', loadMap n 0 (fun _ => none) block c = .ok (map, block + m, c') ∧ Reads c block n m ∧ m ≤ 8 ∧
      Keeps c c' ∧ Gains block m c c' ∧ (∀ b, block ≤ b → b < block + m → (c'.head b).uptodate = true) ∧
      ∀ j, map j = if j < m then some (block + j) else none := by
  have hin' : 0 + n ≤ 8 ∨ ∃ j, 0 + j < 8 ∧ ¬ CanRead c (block + j) :=
    hin.imp (by omega) fun ⟨j, hj, hbad⟩ => ⟨j, by omega, hbad⟩
  obtain ⟨map, m, c', hrun, hreads, hle, hkeep, hgain, hup, hmap⟩ := loadMap_spec (fun _ _ => rfl) hin'
  refine ⟨map, m, c', hrun, hreads, by omega, hkeep, hgain, hup, fun j => ?_⟩
  rw [hmap j]
  by_cases hj : j < m
  · rw [if_pos (by omega), if_pos hj, Nat.sub_zero]
  · rw [if_neg (by omega), if_neg hj]

theorem loadMap_outside {block n : Nat} (hout : ¬ Inside c block n) :
    ∃ e, loadMap n 0 (fun _ => none) block c = .error e := by
  obtain ⟨hn, hread⟩ := not_inside hout
  exact loadMap_bounds (by omega) (by omega) fun j hj => hread j (by omega)

theorem Keeps.inside (h : Keeps c c') {block n : Nat} : Inside c' block n ↔ Inside c block n := by
  unfold Inside
  simp only [h.read]

section Slot

variable {r : SuperTable} {p : SuperBlock} (hdev₀ : dev ≠ 0) (hk : k < nrSuper)
  (hfree : (s.superBlock k).sDev = 0) (hnone : ∀ j < nrSuper, (s.superBlock j).sDev ≠ dev)
  (hsuper : r.superBlock = s.superBlock)

section

include hdev₀ hfree hnone hsuper

/-- The loops have not got all blocks. -/
theorem checkMaps_undo {m n : Nat} (hm : m ≤ 8) (hn : n ≤ 8)
    (himap : ∀ j, p.sImap j = if j < m then some (2 + j) else none)
    (hzmap : ∀ j, p.sZmap j = if j < n then some (2 + m + j) else none) (hgain : Gains 2 (m + n) s.cache r.cache)
    (hne : 2 + m + n ≠ 2 + p.sImapBlocks + p.sZmapBlocks) : s.Meets dev (checkMaps k p (2 + m + n) r) := by
  obtain ⟨c₁, c₂, hrun₁, hrun₂, -, hheld⟩ := release_spec hm hn (fun i _ => himap i) (fun i _ => hzmap i) hgain
  unfold checkMaps
  rw [if_pos hne, hrun₁]
  change s.Meets dev (brelseAll zMapSlots p.sZmap c₁ >>= _)
  rw [hrun₂]
  exact meets_giveUp hdev₀ hfree hnone (r := { r with cache := c₂ }) hsuper hheld

end

include hk hnone hsuper

/-- The loops have got all blocks. -/
theorem checkMaps_iff (hdev : p.sDev = dev) (hm : p.sImapBlocks ≤ 8) (hn : p.sZmapBlocks ≤ 8)
    (himap : ∀ j, p.sImap j = if j < p.sImapBlocks then some (2 + j) else none)
    (hzmap : ∀ j, p.sZmap j = if j < p.sZmapBlocks then some (2 + p.sImapBlocks + j) else none)
    (hgain : Gains 2 (p.sImapBlocks + p.sZmapBlocks) s.cache r.cache)
    (hup : ∀ b, 2 ≤ b → b < 2 + (p.sImapBlocks + p.sZmapBlocks) → (r.cache.head b).uptodate = true) :
    s.Meets dev (checkMaps k p (2 + p.sImapBlocks + p.sZmapBlocks) r) ↔ 1 ≤ p.sImapBlocks ∧ 1 ≤ p.sZmapBlocks := by
  unfold checkMaps
  rw [if_neg (not_not.mpr rfl), himap 0, hzmap 0]
  by_cases hpos : 1 ≤ p.sImapBlocks ∧ 1 ≤ p.sZmapBlocks
  · have hm0 : 0 < p.sImapBlocks := hpos.1
    have hn0 : 0 < p.sZmapBlocks := hpos.2
    rw [if_pos hm0, if_pos hn0]
    refine ⟨fun _ => hpos, fun _ => ?_⟩
    have hself : ∀ s₂ : SuperTable, ∀ q, (s₂.setSuper k q).superBlock k = q := fun s₂ q => by
      rw [superBlock_setSuper, if_pos rfl]
    have hloaded : ({ r with cache := setFirst (2 + p.sImapBlocks + 0) (setFirst (2 + 0) r.cache) }.setSuper k
        { p with sLock := false }).Loaded k := by
      refine ⟨?_, ?_, ?_, ?_, fun i _ => ?_, fun i _ => ?_, fun b hb hb' => ?_⟩
      · rw [hself]
        exact hpos.1
      · rw [hself]
        exact hm
      · rw [hself]
        exact hpos.2
      · rw [hself]
        exact hn
      · rw [hself]
        exact himap i
      · rw [hself]
        exact hzmap i
      · rw [hself] at hb'
        change 0 < (setFirst _ (setFirst _ r.cache)).held b
        rw [held_setFirst, held_setFirst, hgain b, if_pos ⟨hb, hb'⟩]
        exact Nat.succ_pos _
    have honly : ∀ j < nrSuper, (({ r with
        cache := setFirst (2 + p.sImapBlocks + 0) (setFirst (2 + 0) r.cache) }.setSuper k
        { p with sLock := false }).superBlock j).sDev = dev → j = k := by
      intro j hj hjdev
      rw [superBlock_setSuper] at hjdev
      split at hjdev
      · next heq => exact heq
      · exact absurd ((congrArg SuperBlock.sDev (congrFun hsuper j)).symm.trans hjdev) (hnone j hj)
    refine ⟨⟨fun j hj hjdev => honly j hj hjdev ▸ hloaded,
      fun j hj l hl hjdev hldev => (honly j hj hjdev).trans (honly l hl hldev).symm⟩, hk, ?_, hloaded,
      fun _ b hb hb' => ?_⟩
    · rw [hself]
      exact hdev
    · rw [hself] at hb'
      change ((setFirst _ (setFirst _ r.cache)).head b).uptodate = true
      rw [uptodate_setFirst, uptodate_setFirst]
      exact hup b hb hb'
  · refine ⟨fun h => ?_, fun h => absurd h hpos⟩
    -- One of the two arrays begins with `NULL`.
    by_cases hm0 : 0 < p.sImapBlocks
    · rw [if_pos hm0, if_neg (show ¬ 0 < p.sZmapBlocks from fun hn0 => hpos ⟨hm0, hn0⟩)] at h
      exact h.elim
    · rw [if_neg hm0] at h
      split at h
      · next heq _ => cases heq
      · exact h.elim

include hdev₀ hfree

theorem readMaps_iff (hheld : r.cache.held = s.cache.held) (hdev : p.sDev = dev) (hmagic : p.sMagic = superMagic) :
    s.Meets dev (readMaps k p r) ↔ MapsFit r.cache p.sImapBlocks p.sZmapBlocks := by
  unfold readMaps
  rw [if_neg (not_not.mpr hmagic)]
  by_cases hin : Inside r.cache 2 p.sImapBlocks
  swap
  · -- The inode bitmap does not fit into `s_imap`.
    obtain ⟨e, he⟩ := loadMap_outside hin
    rw [he]
    exact ⟨fun h => h.elim, fun h => (hin h.imap).elim⟩
  obtain ⟨imap, m, c₁, hrun, hreads, hm, hkeep, hgain, hup, himap⟩ := loadMap_inside hin
  rw [hrun]
  change s.Meets dev (loadMap p.sZmapBlocks 0 (fun _ => none) (2 + m) c₁ >>= _) ↔ _
  have hgain₁ : Gains 2 m s.cache c₁ := fun b => by rw [hgain b, hheld]
  by_cases hall : m = p.sImapBlocks
  · have hread : ∀ j < p.sImapBlocks, CanRead r.cache (2 + j) := fun j hj => hreads.read j (hall ▸ hj)
    subst hall
    by_cases hin₂ : Inside c₁ (2 + p.sImapBlocks) p.sZmapBlocks
    swap
    · -- The zone bitmap does not fit into `s_zmap`.
      obtain ⟨e, he⟩ := loadMap_outside hin₂
      rw [he]
      exact ⟨fun h => h.elim, fun h => (hin₂ (hkeep.inside.mpr (h.zmap hread))).elim⟩
    obtain ⟨zmap, n, c₂, hrun₂, hreads₂, hn, hkeep₂, hgain₂, hup₂, hzmap⟩ := loadMap_inside hin₂
    rw [hrun₂]
    have hfit : MapsFit r.cache p.sImapBlocks p.sZmapBlocks ↔
        ((∀ j < p.sZmapBlocks, CanRead r.cache (2 + p.sImapBlocks + j)) → 1 ≤ p.sImapBlocks ∧ 1 ≤ p.sZmapBlocks) :=
      ⟨fun h => h.pos hread, fun h => ⟨hin, fun _ => hkeep.inside.mp hin₂, fun _ => h⟩⟩
    rw [hfit]
    by_cases hall₂ : n = p.sZmapBlocks
    · subst hall₂
      refine (checkMaps_iff hk hnone (r := { r with cache := c₂ }) (p := { p with sImap := imap, sZmap := zmap })
        hsuper hdev hm hn himap hzmap (hgain₁.add hgain₂) fun b hb hb' => ?_).trans
        ⟨fun h _ => h, fun h => h fun j hj => (hkeep.read _).mp (hreads₂.read j hj)⟩
      change b < 2 + (p.sImapBlocks + p.sZmapBlocks) at hb'
      by_cases hlow : b < 2 + p.sImapBlocks
      · exact hkeep₂.same.uptodate b (hup b hb hlow)
      · exact hup₂ b (by omega) (by omega)
    · refine ⟨fun _ hread₂ => ?_, fun _ => ?_⟩
      · have hlt : n < p.sZmapBlocks := lt_of_le_of_ne hreads₂.le hall₂
        exact absurd ((hkeep.read _).mpr (hread₂ n hlt)) (hreads₂.stop hlt)
      · exact checkMaps_undo hdev₀ hfree hnone (r := { r with cache := c₂ }) (p := { p with sImap := imap, sZmap := zmap })
          hsuper hm hn himap hzmap (hgain₁.add hgain₂) (by simp only; omega)
  · -- A block of the inode bitmap cannot be read, and the second loop comes to it again.
    have hlt : m < p.sImapBlocks := lt_of_le_of_ne hreads.le hall
    have hbad : ¬ CanRead c₁ (2 + m) := fun h => hreads.stop hlt ((hkeep.read _).mp h)
    have hin₂ : Inside c₁ (2 + m) p.sZmapBlocks := .inr ⟨0, by omega, hbad⟩
    obtain ⟨zmap, n, c₂, hrun₂, hreads₂, hn, hkeep₂, hgain₂, hup₂, hzmap⟩ := loadMap_inside hin₂
    rw [hrun₂]
    refine ⟨fun _ => ⟨hin, fun h => absurd (h m hlt) (hreads.stop hlt), fun h => absurd (h m hlt) (hreads.stop hlt)⟩,
      fun _ => ?_⟩
    have hn0 := hreads₂.zero hbad
    exact checkMaps_undo hdev₀ hfree hnone (r := { r with cache := c₂ }) (p := { p with sImap := imap, sZmap := zmap })
      hsuper hm hn himap hzmap (hgain₁.add hgain₂) (by simp only; omega)

end Slot

/-! ## `read_super` -/

/-- If `read_super` comes to load the super block: the numbers in block 1 are such that it can. -/
def Fits (s : SuperTable) (dev : Nat) : Prop :=
  dev ≠ 0 → s.getSuper dev = none → (∃ k < nrSuper, (s.superBlock k).sDev = 0) → CanRead s.cache 1 →
    Dev.word (s.cache.contents 1) 8 = superMagic →
      MapsFit s.cache (Dev.word (s.cache.contents 1) 2) (Dev.word (s.cache.contents 1) 3)

theorem Keeps.mapsFit (h : Keeps c c') {m n : Nat} : MapsFit c' m n ↔ MapsFit c m n := by
  have hall : ∀ block n : Nat, (∀ j < n, CanRead c' (block + j)) ↔ ∀ j < n, CanRead c (block + j) := by
    intro block n
    simp only [h.read]
  constructor
  · exact fun hfit => ⟨h.inside.mp hfit.imap, fun hr => h.inside.mp (hfit.zmap ((hall 2 m).mpr hr)),
      fun hr hr' => hfit.pos ((hall 2 m).mpr hr) ((hall _ n).mpr hr')⟩
  · exact fun hfit => ⟨h.inside.mpr hfit.imap, fun hr => h.inside.mpr (hfit.zmap ((hall 2 m).mp hr)),
      fun hr hr' => hfit.pos ((hall 2 m).mp hr) ((hall _ n).mp hr')⟩

theorem readMaps_other {p : SuperBlock} (hmagic : p.sMagic ≠ superMagic) : readMaps k p s = .ok (s.giveUp k p) :=
  if_pos hmagic

theorem readSlot_iff (hdev : dev ≠ 0) (hk : k < nrSuper) (hfree : (s.superBlock k).sDev = 0)
    (hnone : ∀ j < nrSuper, (s.superBlock j).sDev ≠ dev) :
    s.Meets dev (s.readSlot dev k) ↔ (CanRead s.cache 1 → Dev.word (s.cache.contents 1) 8 = superMagic →
      MapsFit s.cache (Dev.word (s.cache.contents 1) 2) (Dev.word (s.cache.contents 1) 3)) := by
  obtain ⟨⟨got, c₁⟩, hbread, hkeep, hgot⟩ := bread_spec 1 s.cache
  unfold readSlot
  rw [hbread]
  rcases hgot with ⟨hgot, hcan, hup, hheld⟩ | ⟨hgot, hcan, hheld⟩
  · cases hgot
    have hdata : (c₁.head 1).data = s.cache.contents 1 := by
      rw [← hkeep.same.contents, Cache.contents, if_pos hup]
    obtain ⟨c₂, hrel, hkeep₂, hheld₂⟩ := brelse_spec (c := c₁) (b := 1) (n := s.cache.held 1) (by
      rw [hheld, Function.update_self])
    have hheld' : c₂.held = s.cache.held := by
      rw [hheld₂, hheld, Function.update_idem, Function.update_eq_self]
    change s.Meets dev (brelse (some 1) c₁ >>= _) ↔ _
    rw [hrel, hdata]
    by_cases hmagic : Dev.word (s.cache.contents 1) 8 = superMagic
    · refine (readMaps_iff hdev hk hfree hnone (r := { s with cache := c₂ }) rfl hheld' rfl hmagic).trans ?_
      rw [(hkeep.trans hkeep₂).mapsFit]
      exact ⟨fun h _ _ => h, fun h => h hcan hmagic⟩
    · refine ⟨fun _ _ h => absurd h hmagic, fun _ => ?_⟩
      change s.Meets dev (readMaps k _ _)
      rw [readMaps_other hmagic]
      exact meets_giveUp hdev hfree hnone (r := { s with cache := c₂ }) rfl hheld'
  · cases hgot
    refine ⟨fun _ h => absurd h hcan, fun _ => ?_⟩
    exact meets_giveUp hdev hfree hnone (r := { s with cache := c₁ }) rfl hheld

theorem getSuper_some (h : s.getSuper dev = some k) : k < nrSuper ∧ (s.superBlock k).sDev = dev := by
  unfold getSuper at h
  split at h
  · cases h
  · exact ⟨List.mem_range.mp (List.mem_of_find?_eq_some h), beq_iff_eq.mp (List.find?_some h :)⟩

theorem getSuper_none (hdev : dev ≠ 0) (h : s.getSuper dev = none) : ∀ j < nrSuper, (s.superBlock j).sDev ≠ dev := by
  rw [getSuper, if_neg hdev] at h
  intro j hj hjdev
  exact List.find?_eq_none.mp h j (List.mem_range.mpr hj) (beq_iff_eq.mpr hjdev)

/-! ### What `check_disk_change` leaves -/

theorem Kept.congr (h : s.Kept dev) (hsuper : s'.superBlock = s.superBlock) (hheld : s'.cache.held = s.cache.held) :
    s'.Kept dev := by
  refine ⟨fun k hk hdev => ?_, hsuper ▸ h.unique⟩
  obtain ⟨h₁, h₂, h₃, h₄, h₅, h₆, h₇⟩ := h.loaded k hk (by rwa [← hsuper])
  rw [← hsuper] at h₁ h₂ h₃ h₄ h₅ h₆ h₇
  rw [← hheld] at h₇
  exact ⟨h₁, h₂, h₃, h₄, h₅, h₆, h₇⟩

theorem held_invalidateBuffers : (invalidateBuffers c).held = c.held := by
  funext b
  unfold Cache.held Cache.head invalidateBuffers
  cases hb : c.buffer b with
  | none => simp [hb]
  | some h => simp [hb]

theorem putSuper_spec (hdev : dev ≠ 0) (h : s.Kept dev) : ∃ s₁, s.putSuper dev = .ok s₁ ∧ s₁.Kept dev := by
  unfold putSuper
  split
  · exact ⟨s, rfl, h⟩
  · split
    · exact ⟨s, rfl, h⟩
    · next k hk =>
      obtain ⟨hlt, hkdev⟩ := getSuper_some hk
      have hload := h.loaded k hlt hkdev
      simp only
      split
      · exact ⟨s, rfl, h⟩
      · obtain ⟨c₁, hrun₁, hkeep₁, hgain₁⟩ := brelseAll_spec hload.imap_le hload.imap fun b hb hb' =>
          hload.held b hb (by omega)
        obtain ⟨c₂, hrun₂, -, -⟩ := brelseAll_spec (c := c₁) hload.zmap_le hload.zmap fun b hb hb' => by
          have hpos := hload.held b (by omega) (by omega)
          have hself := hgain₁ b
          rw [if_neg (by omega)] at hself
          omega
        rw [hrun₁]
        change ∃ s₁, (brelseAll zMapSlots (s.superBlock k).sZmap c₁ >>= _) = .ok s₁ ∧ _
        rw [hrun₂]
        refine ⟨_, rfl, ?_⟩
        -- The only super block of the device is gone.
        have hgone : ∀ j < nrSuper, (({ s with cache := c₂ }.setSuper k { s.superBlock k with
            sDev := 0, sLock := false }).superBlock j).sDev ≠ dev := by
          intro j hj hjdev
          rw [superBlock_setSuper] at hjdev
          split at hjdev
          · exact hdev hjdev.symm
          · next hne => exact hne (h.unique j hj k hlt hjdev hkdev)
        exact ⟨fun j hj hjdev => absurd hjdev (hgone j hj), fun j hj _ _ hjdev => absurd hjdev (hgone j hj)⟩

theorem checkDiskChange_spec (h : s.Kept dev) : ∃ s₁, s.checkDiskChange dev = .ok s₁ ∧ s₁.Kept dev := by
  unfold checkDiskChange
  split
  · exact ⟨s, rfl, h⟩
  · next hmajor =>
    have hdev : dev ≠ 0 := by
      rintro rfl
      exact hmajor (by decide)
    split
    · exact ⟨s, rfl, h⟩
    · have hloop : Post ((List.range nrSuper).foldlM
          (fun s k => if (s.superBlock k).sDev = dev then s.putSuper dev else .ok s) s)
          (fun s₁ : SuperTable => s₁.Kept dev) (fun _ => False) := by
        refine Post.foldlM_range (I := fun (_ : Nat) (s₁ : SuperTable) => s₁.Kept dev) nrSuper
          (fun k _ s₁ h₁ => ?_) h
        split
        · obtain ⟨s₂, hput, h₂⟩ := putSuper_spec hdev h₁
          rw [hput]
          exact Post.ret h₂
        · exact Post.ret h₁
      obtain ⟨s₁, hrun, h₁⟩ := hloop.returns
      rw [hrun]
      exact ⟨_, rfl, h₁.congr rfl held_invalidateBuffers⟩

/-- `read_super` does what it should if and only if the numbers of bitmap blocks fit the arrays, or a block that
cannot be read stops the loops in time, and there is a bitmap of each kind. -/
theorem readSuper_meets (h : s.Kept dev) :
    ∃ s₁, s.checkDiskChange dev = .ok s₁ ∧ (s₁.Meets dev (s.readSuper dev) ↔ s₁.Fits dev) := by
  obtain ⟨s₁, hcheck, h₁⟩ := checkDiskChange_spec h
  refine ⟨s₁, hcheck, ?_⟩
  unfold readSuper Fits
  split
  · next hdev =>
    have hsame : s = s₁ := by
      rw [checkDiskChange, if_pos (by rw [hdev]; decide)] at hcheck
      exact Except.ok.inj hcheck
    subst hsame
    exact ⟨fun _ h0 => absurd hdev h0, fun _ => ⟨h, rfl, fun _ => ⟨rfl, id⟩⟩⟩
  · next hdev =>
    rw [hcheck]
    change s₁.Meets dev (match s₁.getSuper dev with
      | some k => .ok (some k, s₁)
      | none => _) ↔ _
    cases hget : s₁.getSuper dev with
    | some k =>
      obtain ⟨hk, hkdev⟩ := getSuper_some hget
      refine ⟨fun _ _ hnone => (by cases hnone), fun _ => ⟨h₁, hk, hkdev, h₁.loaded k hk hkdev, fun hnone => ?_⟩⟩
      rw [hget] at hnone
      cases hnone
    | none =>
      have hnone := getSuper_none hdev hget
      dsimp only
      split
      · next hfull =>
        refine ⟨fun _ _ _ hslot => ?_, fun _ => ⟨h₁, rfl, fun _ => ⟨rfl, id⟩⟩⟩
        obtain ⟨k, hk, hfree⟩ := hslot
        exact absurd (beq_iff_eq.mpr hfree) (List.find?_eq_none.mp hfull k (List.mem_range.mpr hk))
      · next k hslot =>
        have hk : k < nrSuper := List.mem_range.mp (List.mem_of_find?_eq_some hslot)
        have hfree : (s₁.superBlock k).sDev = 0 := beq_iff_eq.mp (List.find?_some hslot :)
        rw [readSlot_iff hdev hk hfree hnone]
        exact ⟨fun h _ _ _ => h, fun h => h hdev rfl ⟨k, hk, hfree⟩⟩

/-- An empty table, and a disk that can be read and has so many blocks of bitmaps, by its block 1. -/
def freshDisk (imapBlocks zmapBlocks : Nat) : SuperTable where
  cache :=
    { buffer := fun _ => none
      disk := fun b i => if b = 1 then
          if i = 4 then UInt8.ofNat imapBlocks else if i = 6 then UInt8.ofNat zmapBlocks
          else if i = 16 then 0x7F else if i = 17 then 0x13 else 0
        else 0
      works := fun _ => true
      recycled := fun _ _ => 0 }
  superBlock _ := ⟨0, 0, 0, 0, 0, 0, 0, 0, fun _ => none, fun _ => none, 0, none, none, 0, false, false, false⟩
  rootDev := 0x301
  changed := false

theorem freshDisk_kept (m n : Nat) : (freshDisk m n).Kept 0x302 :=
  ⟨fun _ _ h => (by cases h), fun _ _ _ _ h => (by cases h)⟩

theorem readSuper_meets_small : ∃ s₁, (freshDisk 1 2).checkDiskChange 0x302 = .ok s₁ ∧
    s₁.Meets 0x302 ((freshDisk 1 2).readSuper 0x302) := by
  obtain ⟨s₁, hcheck, hmeets⟩ := readSuper_meets (freshDisk_kept 1 2)
  refine ⟨s₁, hcheck, hmeets.mpr fun _ _ _ _ _ => ?_⟩
  have hsame : freshDisk 1 2 = s₁ := Except.ok.inj hcheck
  subst hsame
  exact ⟨.inl (by decide), fun _ => .inl (by decide), fun _ _ => ⟨by decide, by decide⟩⟩

/-- With nine blocks of inode bitmap, `read_super` stores into `s_imap[8]`; with none, it goes through `NULL`. -/
theorem readSuper_faults :
    (∃ s₁, (freshDisk 9 1).checkDiskChange 0x302 = .ok s₁ ∧ ¬ s₁.Meets 0x302 ((freshDisk 9 1).readSuper 0x302)) ∧
      (freshDisk 9 1).readSuper 0x302 = .error (.bounds 8) ∧ (freshDisk 0 1).readSuper 0x302 = .error .null := by
  have hnine : (freshDisk 9 1).readSuper 0x302 = .error (.bounds 8) := rfl
  refine ⟨⟨freshDisk 9 1, rfl, ?_⟩, hnine, rfl⟩
  rw [hnine]
  exact id

end SuperTable

end Linux011.Fs
