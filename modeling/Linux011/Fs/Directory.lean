import Linux011.Fs.Creation
import Linux011.Fs.FileBytes
import Linux011.Lib.Run

/-!
# A directory is a finite map

`match` and `find_entry` of `fs/namei.c`, and what they find after `add_entry`. The name `..` is left out here:
for it `find_entry` may go on in the directory of another device.

A directory stands for a map from names to inode numbers (`Dev.directory`). An entry of which only a part lies
below `i_size` is one for `add_entry` but none for `find_entry`, so the directories have whole entries here.
-/

namespace Linux011.Fs

open Linux011.Lib

namespace Dev

/-- `match` -/
def matchName (name : List UInt8) (data : Nat → UInt8) (k : Nat) : Bool :=
  if entryInode data k = 0 ∨ nameLen < name.length then false
  else if name.length < nameLen ∧ data (16 * k + 2 + name.length) ≠ 0 then false
  else (List.range name.length).all fun p => name.getD p 0 == data (16 * k + 2 + p)

/-- The head of the loop of `find_entry`, before entry `i` with `left` entries to go, which is entry `k` of
the block `b`. Where the next block cannot be had, the loop is left if there are no entries beyond it, and
follows `bh` else. -/
def findBlock (dir i left b k : Nat) (s : Dev) : Except Panic (Option (Nat × Nat) × Dev) :=
  if k < 64 then .ok (some (b, k), s)
  else do
    let s ← s.brelse b
    let r ← s.bmap dir (i / 64)
    let r' ← if r.1 = 0 then .ok (false, r.2) else r.2.bread r.1
    if r'.1 then return (some (r.1, 0), r'.2)
    else if left ≤ 64 then return (none, r'.2)
    else .error "find_entry: bh is NULL"

/-- The loop of `find_entry`, with `left` entries to go. -/
def findLoop (dir : Nat) (name : List UInt8) :
    (left i b k : Nat) → Dev → Except Panic (Option (Nat × Nat) × Dev)
  | 0, _, b, _, s => do
    let s ← s.brelse b
    return (none, s)
  | left + 1, i, b, k, s => do
    let r ← s.findBlock dir i (left + 1) b k
    match r.1 with
    | none => return (none, r.2)
    | some (b, k) =>
      if matchName name (r.2.cache.head b).data k then return (some (b, k), r.2)
      else findLoop dir name left (i + 1) b (k + 1) r.2

/-- `find_entry` for a name that is not `..`, with the buffer and the place of the entry. -/
def findEntry (dir : Nat) (name : List UInt8) (s : Dev) : Except Panic (Option (Nat × Nat) × Dev) :=
  let name := name.take nameLen
  let entries := (s.inode dir).iSize / 16
  if name = [] then .ok (none, s)
  else if (s.inode dir).iZone 0 = 0 then .ok (none, s)
  else do
    let r ← s.bread ((s.inode dir).iZone 0)
    if r.1 then r.2.findLoop dir name entries 0 ((s.inode dir).iZone 0) 0
    else return (none, r.2)

/-- `de->inode = nr`, for an entry whose buffer is held. -/
def putInode (b k nr : Nat) (s : Dev) : Dev := s.modify b (setWord (8 * k) nr)

/-- `add_entry`, and the inode number that its caller stores in the entry. -/
def link (dir : Nat) (name : List UInt8) (nr : Nat) (s : Dev) : Except Panic (Option (Nat × Nat) × Dev) := do
  let r ← s.addEntry dir name
  match r.1 with
  | none => return (none, r.2)
  | some (b, k) => return (some (b, k), r.2.putInode b k nr)

/-- `find_entry`, and the entry cleared. -/
def unlink (dir : Nat) (name : List UInt8) (s : Dev) : Except Panic (Option (Nat × Nat) × Dev) := do
  let r ← s.findEntry dir name
  match r.1 with
  | none => return (none, r.2)
  | some (b, k) => return (some (b, k), r.2.putInode b k 0)

/-! ## The map -/

/-- The blocks below `i_size` are mapped and can be read, and so can the index blocks on the way to them. -/
def Mapped (s : Dev) (dir : Nat) : Prop :=
  ∀ j, 1024 * j < (s.inode dir).iSize → j < maxBlocks ∧ s.slotZone dir (Slot.ofBlock j) ≠ 0 ∧
    s.Readable (s.slotZone dir (Slot.ofBlock j)) ∧ ∀ p ∈ (Slot.ofBlock j).above, s.Readable (s.slotZone dir p)

/-- The characters of the name in entry `i`. A name of 14 characters has no zero behind it. -/
def nameOf (s : Dev) (dir i : Nat) : List UInt8 := (s.entryName dir i).takeWhile (· != 0)

/-- The name in entry `i` is `name`, cut to 14 characters, and the entry is not free. -/
def Named (s : Dev) (dir : Nat) (name : List UInt8) (i : Nat) : Prop :=
  s.entryNr dir i ≠ 0 ∧ s.nameOf dir i = name.take nameLen

instance (s : Dev) (dir : Nat) (name : List UInt8) (i : Nat) : Decidable (s.Named dir name i) :=
  inferInstanceAs (Decidable (_ ∧ _))

/-- The number of entries that `find_entry` looks at. -/
def entries (s : Dev) (dir : Nat) : Nat := (s.inode dir).iSize / 16

/-- The first entry with the name. -/
def entryFor (s : Dev) (dir : Nat) (name : List UInt8) : Option Nat :=
  (List.range (s.entries dir)).find? fun i => s.Named dir name i

/-- The directory as a map from names to inode numbers. -/
def directory (s : Dev) (dir : Nat) (name : List UInt8) : Option Nat :=
  (s.entryFor dir name).map (s.entryNr dir)

/-- The inode number that `find_entry` leads to. -/
def lookup (s : Dev) (dir : Nat) (name : List UInt8) : Option Nat :=
  match s.findEntry dir name with
  | .ok (some (b, k), s') => some (entryInode (s'.cache.head b).data k)
  | _ => none

/-- No two entries that are not free have the same name. -/
def Distinct (s : Dev) (dir : Nat) : Prop :=
  ∀ i < s.entries dir, ∀ j < s.entries dir, s.entryNr dir i ≠ 0 → s.entryNr dir j ≠ 0 →
    s.nameOf dir i = s.nameOf dir j → i = j

/-- The buffer and the place of an entry. -/
def place (s : Dev) (dir i : Nat) : Nat × Nat := (s.slotZone dir (Slot.ofBlock (i / 64)), i % 64)

end Dev

open Dev

variable {tight : Prop} {zoned : Nat → Prop} {s s' : Dev} {dir i b k : Nat} {name : List UInt8}

/-! ## Comparing names -/

theorem takeWhile_eq_iff {l : List UInt8} (hzero : 0 ∉ name) :
    l.takeWhile (· != 0) = name ↔ name <+: l ∧ l.getD name.length 0 = 0 := by
  induction l generalizing name with
  | nil =>
    rw [List.takeWhile_nil, List.prefix_nil]
    exact ⟨fun h => ⟨h.symm, rfl⟩, fun h => h.1.symm⟩
  | cons c l ih =>
    rw [List.takeWhile_cons]
    cases name with
    | nil =>
      by_cases hc : c = 0
      · simp [hc]
      · simp [hc]
    | cons d name =>
      rw [List.mem_cons, not_or] at hzero
      rw [List.cons_prefix_cons, List.length_cons, List.getD_cons_succ]
      by_cases hc : c = 0
      · -- no character of a name is zero
        rw [hc, if_neg (by simp)]
        exact ⟨fun h => (by cases h), fun h => absurd h.1.1.symm hzero.1⟩
      · rw [if_pos (by simpa using hc), List.cons.injEq, ih hzero.2, and_assoc, eq_comm]

theorem prefix_map_range {f : Nat → UInt8} {n : Nat} (hlen : name.length ≤ n) :
    name <+: (List.range n).map f ↔ ∀ p < name.length, name.getD p 0 = f p := by
  rw [List.prefix_iff_eq_take]
  constructor
  · intro h p hp
    have hget := congrArg (·.getD p 0) h
    simpa [List.getD_eq_getElem?_getD, hp, show p < n by omega] using hget
  · intro h
    refine List.ext_getElem (by simp [hlen]) fun p hp _ => ?_
    have hget := h p hp
    rw [List.getD_eq_getElem _ _ hp] at hget
    simpa using hget

/-- `match` compares up to the first zero of the entry. -/
theorem matchName_iff {data : Nat → UInt8} (hlen : name.length ≤ nameLen) (hzero : 0 ∉ name) :
    matchName name data k = true ↔ entryInode data k ≠ 0 ∧
      ((List.range nameLen).map fun p => data (16 * k + 2 + p)).takeWhile (· != 0) = name := by
  have hend : ((List.range nameLen).map fun p => data (16 * k + 2 + p)).getD name.length 0 = 0 ↔
      ¬ (name.length < nameLen ∧ data (16 * k + 2 + name.length) ≠ 0) := by
    rw [List.getD_eq_getElem?_getD, List.getElem?_map]
    by_cases hshort : name.length < nameLen
    · simp [hshort]
    · simp [hshort]
  rw [takeWhile_eq_iff hzero, prefix_map_range hlen, hend]
  unfold matchName
  by_cases hfree : entryInode data k = 0
  · rw [if_pos (Or.inl hfree)]
    simp [hfree]
  · rw [if_neg (by omega)]
    split
    · next hlong => simp [hlong]
    · next hlong => simp [hfree, hlong]

/-! ## Looking an entry up -/

/-- Byte `q` of entry `i`, in the buffer that has it as entry `k`. -/
theorem fileByte_head (hup : (s.cache.head b).uptodate = true)
    (hb : s.slotZone dir (Slot.ofBlock (i / 64)) = b) (hne : b ≠ 0) (hk : i % 64 = k) {q : Nat} (hq : q < 16) :
    s.fileByte dir (16 * i + q) = (s.cache.head b).data (16 * k + q) := by
  have hdata : s.contents b = (s.cache.head b).data := if_pos hup
  unfold Dev.fileByte
  rw [show (16 * i + q) / 1024 = i / 64 by omega, show (16 * i + q) % 1024 = 16 * k + q by omega, hb, if_neg hne, hdata]

theorem entryName_head (hup : (s.cache.head b).uptodate = true)
    (hb : s.slotZone dir (Slot.ofBlock (i / 64)) = b) (hne : b ≠ 0) (hk : i % 64 = k) :
    s.entryName dir i = (List.range nameLen).map fun p => (s.cache.head b).data (16 * k + 2 + p) := by
  refine List.map_congr_left fun p hp => ?_
  have hlen : p < 14 := List.mem_range.mp hp
  rw [Nat.add_assoc, Nat.add_assoc]
  exact fileByte_head hup hb hne hk (by omega)

theorem Dev.Same.entryNr (h : Same s s') (dir i : Nat) : s'.entryNr dir i = s.entryNr dir i := by
  unfold Dev.entryNr Dev.word
  rw [h.fileByte, h.fileByte]

theorem Dev.Same.entryName (h : Same s s') (dir i : Nat) : s'.entryName dir i = s.entryName dir i :=
  List.map_congr_left fun p _ => h.fileByte dir (16 * i + 2 + p)

/-- `find_entry` has come to entry `i` of the directory, which is entry `k` of the block `b` or the first one
behind it. The entries before it have other names. -/
structure Looking (s : Dev) (dir : Nat) (name : List UInt8) (i b k : Nat) (s' : Dev) : Prop where
  same : Same s s'
  held : s'.held = Function.update s.held b (s.held b + 1)
  uptodate : (s'.cache.head b).uptodate = true
  within : k ≤ 64 ∧ ∃ j, i = 64 * j + k ∧ s.slotZone dir (Slot.ofBlock j) = b
  full : b ≠ 0
  past : ∀ j < i, ¬ s.Named dir name j

theorem Looking.zone (h : Looking s dir name i b k s') (hk : k < 64) : s.place dir i = (b, k) := by
  obtain ⟨-, j, hi, hb⟩ := h.within
  unfold Dev.place
  rw [show i / 64 = j by omega, show i % 64 = k by omega, hb]

theorem Looking.match_iff (h : Looking s dir name i b k s') (hzero : 0 ∉ name) (hk : k < 64) :
    matchName (name.take nameLen) (s'.cache.head b).data k = true ↔ s.Named dir name i := by
  have hplace := Prod.ext_iff.mp (h.zone hk)
  have hb : s'.slotZone dir (Slot.ofBlock (i / 64)) = b := by
    rw [h.same.slotZone]
    exact hplace.1
  unfold Dev.Named nameOf
  rw [matchName_iff (List.length_take_le ..) fun hmem => hzero (List.mem_of_mem_take hmem),
    ← h.same.entryNr, ← h.same.entryName, entryNr_head h.uptodate hb h.full hplace.2,
    entryName_head h.uptodate hb h.full hplace.2]

/-- The block with the next entry is found. -/
theorem findBlock_spec (hmap : s.Mapped dir) (h : Looking s dir name i b k s') {left : Nat}
    (hi : 16 * i < (s.inode dir).iSize) :
    Post (s'.findBlock dir i left b k)
      (fun r => ∃ b' k', r.1 = some (b', k') ∧ k' < 64 ∧ Looking s dir name i b' k' r.2) (fun _ => False) := by
  unfold findBlock
  by_cases hk : k < 64
  · rw [if_pos hk]
    exact Post.ret ⟨b, k, rfl, hk, h⟩
  · rw [if_neg hk]
    have hblock : i % 64 = 0 := by
      obtain ⟨hk64, j, hij, -⟩ := h.within
      omega
    obtain ⟨hlimit, hz, hread, habove⟩ := hmap (i / 64) (by omega)
    refine Post.bind (brelse_back h.held) ?_
    rintro s₁ ⟨hsame₁, hheld₁⟩
    have hback := h.same.trans hsame₁
    refine Post.bind (bmap_look (fun p hp _ => ?_) hlimit) ?_
    · rw [hback.slotZone]
      exact hback.readable (habove p hp)
    rintro ⟨z, s₂⟩ ⟨hsame₂, hheld₂, hzone⟩
    have hsame := hback.trans hsame₂
    simp only at hzone hheld₂ ⊢
    rw [hback.slotZone] at hzone
    rw [if_neg (by rw [hzone]; exact hz)]
    refine Post.bind (bread_got (hsame.readable (by rw [hzone]; exact hread))) ?_
    rintro ⟨got, s₃⟩ ⟨hsame₃, hgot, hup, hheld₃⟩
    simp only at hgot hup hheld₃ ⊢
    rw [if_pos hgot]
    refine Post.ret ⟨z, 0, rfl, by decide, hsame.trans hsame₃, ?_, hup, ⟨by decide, i / 64, by omega, hzone.symm⟩, ?_,
      h.past⟩
    · rw [hheld₃, hheld₂, hheld₁]
    · rw [hzone]
      exact hz

/-- What `find_entry` gives: the entry if there is one, with its buffer held. -/
structure Found (s : Dev) (dir : Nat) (name : List UInt8) (r : Option (Nat × Nat) × Dev) : Prop where
  same : Same s r.2
  eq : r.1 = (s.entryFor dir name).map (s.place dir)
  held : ∀ b k, r.1 = some (b, k) → (r.2.cache.head b).uptodate = true ∧
    r.2.held = Function.update s.held b (s.held b + 1)
  none : r.1 = none → r.2.held = s.held

theorem entryFor_eq_some : s.entryFor dir name = some i ↔
    i < s.entries dir ∧ s.Named dir name i ∧ ∀ j < i, ¬ s.Named dir name j := by
  unfold Dev.entryFor
  rw [List.find?_range_eq_some]
  simp only [decide_eq_true_eq, List.mem_range, Bool.not_eq_eq_eq_not, Bool.not_true, decide_eq_false_iff_not]
  tauto

theorem entryFor_eq_none : s.entryFor dir name = none ↔ ∀ i < s.entries dir, ¬ s.Named dir name i := by
  unfold Dev.entryFor
  rw [List.find?_range_eq_none]
  simp

theorem findLoop_spec (hmap : s.Mapped dir) (hzero : 0 ∉ name) :
    ∀ (left i b k : Nat) (s' : Dev), Looking s dir name i b k s' → i + left = s.entries dir →
    Post (s'.findLoop dir (name.take nameLen) left i b k) (Found s dir name) (fun _ => False)
  | 0, i, b, k, s', h, hleft => by
    unfold findLoop
    refine Post.bind (brelse_back h.held) ?_
    rintro s₁ ⟨hsame₁, hheld₁⟩
    have hnone : s.entryFor dir name = none := entryFor_eq_none.mpr fun j hj => h.past j (by omega)
    refine Post.ret ⟨h.same.trans hsame₁, ?_, fun _ _ hsome => (by cases hsome), fun _ => hheld₁⟩
    rw [hnone]
    rfl
  | left + 1, i, b, k, s', h, hleft => by
    unfold findLoop
    have hi : 16 * i < (s.inode dir).iSize := by
      unfold Dev.entries at hleft
      omega
    refine Post.bind (findBlock_spec hmap h hi) ?_
    rintro ⟨found, s₁⟩ ⟨b', k', hfound, hk', h₁⟩
    cases hfound
    simp only
    split
    · next hmatch =>
      have hfirst : s.entryFor dir name = some i :=
        entryFor_eq_some.mpr ⟨by omega, (h₁.match_iff hzero hk').mp hmatch, h₁.past⟩
      refine Post.ret ⟨h₁.same, ?_, ?_, fun hnone => (by cases hnone)⟩
      · rw [hfirst, Option.map_some, h₁.zone hk']
      · intro b k hsome
        cases hsome
        exact ⟨h₁.uptodate, h₁.held⟩
    · next hmatch =>
      rw [h₁.match_iff hzero hk'] at hmatch
      obtain ⟨-, j, hij, hb⟩ := h₁.within
      refine findLoop_spec hmap hzero left (i + 1) b' (k' + 1) s₁
        ⟨h₁.same, h₁.held, h₁.uptodate, ⟨by omega, j, by omega, hb⟩, h₁.full, fun c hc => ?_⟩ (by omega)
      rcases Nat.lt_succ_iff_lt_or_eq.mp hc with hlt | rfl
      · exact h₁.past c hlt
      · exact hmatch

/-- `find_entry` gives the first entry with the name, and there is one if it gives one. -/
theorem findEntry_spec (hmap : s.Mapped dir) (hne : name ≠ []) (hzero : 0 ∉ name) :
    Post (s.findEntry dir name) (Found s dir name) (fun _ => False) := by
  have hshort : name.take nameLen ≠ [] := by
    cases name with
    | nil => exact absurd rfl hne
    | cons c cs => exact List.cons_ne_nil _ _
  have hempty : ¬ 0 < (s.inode dir).iSize → s.entryFor dir name = none := by
    intro hsize
    refine entryFor_eq_none.mpr fun j hj => ?_
    unfold Dev.entries at hj
    omega
  unfold findEntry
  simp only
  rw [if_neg hshort]
  split
  · next hz =>
    refine Post.ret ⟨.refl s, ?_, fun _ _ hsome => (by cases hsome), fun _ => rfl⟩
    rw [hempty fun hsize => (hmap 0 hsize).2.1 hz]
    rfl
  · next hz =>
    refine Post.bind (bread_spec _ s) ?_
    rintro ⟨got, s₁⟩ ⟨hsame, ⟨hgot, hup, hheld⟩ | ⟨hgot, hbad, hheld⟩⟩
    · cases hgot
      exact findLoop_spec hmap hzero _ 0 _ 0 s₁
        ⟨hsame, hheld, hup, ⟨by decide, 0, rfl, rfl⟩, hz, fun j hj => absurd hj (Nat.not_lt_zero j)⟩ (Nat.zero_add _)
    · cases hgot
      refine Post.ret ⟨hsame, ?_, fun _ _ hsome => (by cases hsome), fun _ => hheld⟩
      rw [hempty fun hsize => hbad (hmap 0 hsize).2.2.1]
      rfl

/-! ## The block of a new entry -/

theorem entryZone_readable (create : Bool) {z : Nat} :
    Post (s.entryZone create z k) (fun r => r.1 ≠ 0 → s.Readable z) (fun _ => True) := by
  unfold Dev.entryZone
  refine Post.bind ((bread_readable z s).mono (fun _ h => h) fun _ _ => trivial) ?_
  rintro ⟨got, s₁⟩ ⟨-, -, ⟨hread, -⟩ | ⟨-, hgot, -⟩⟩
  · exact (Post.any _).imp fun _ _ _ => hread
  · cases hgot
    exact Post.ret fun hne => absurd rfl hne

/-- Where `create_block` gives a block, the index blocks on the way to it can be read. -/
theorem createBlock_index {n block : Nat} (h : ZoneInv tight zoned noDead s) (hn : zoned n)
    (hblock : block < maxBlocks) :
    Post (s.createBlock n block)
      (fun r => r.1 ≠ 0 → ∀ p ∈ (Slot.ofBlock block).above, r.2.Readable (r.2.slotZone n p)) (fun _ => True) := by
  obtain ⟨hsl, -⟩ := Slot.ofBlock_valid hblock
  have hway : Post (s.createBlock n block) (fun r => Reached tight zoned n (Slot.ofBlock block) s r ∧
      (r.1 ≠ 0 → ∀ q ∈ (Slot.ofBlock block).above, r.2.Readable (r.2.slotZone n q))) (fun _ => True) := by
    refine bmapCreate_rule (P := fun sl r => Reached tight zoned n sl s r ∧
      (r.1 ≠ 0 → ∀ q ∈ sl.above, r.2.Readable (r.2.slotZone n q)))
      rfl hblock (fun i hi => ?_) (fun p hp k _ s' hr => ?_) fun p hp k hk _ b s' hb hr => ?_
    · have hi : Slot.Valid (.zone i) := hi.elim (fun heq => heq ▸ hsl) fun hi => (Slot.above_valid hsl hi).1
      exact (inodeZone_reached h hn hi).mono (fun r hr => ⟨hr, fun _ q hq => absurd hq List.not_mem_nil⟩)
        fun _ he => he.elim
    · obtain ⟨hvalid, hindex⟩ := Slot.above_valid hsl hp
      exact ⟨hr.1.none hindex hvalid k, fun hne => absurd rfl hne⟩
    · obtain ⟨hvalid, hindex⟩ := Slot.above_valid hsl hp
      have hself : b = s'.slotZone n p := hr.1.zone.resolve_left hb
      have hz : s'.slotZone n p ≠ 0 := hself ▸ hb
      have hcreate := entryZone_create hr.1.zones hn hindex hvalid (Slot.child_valid hindex hvalid hk).1 hz
      rw [← hself] at hcreate
      refine (((hr.1.entry hn hindex hvalid hk hb).and hcreate).and (entryZone_readable true)).mono ?_ fun _ _ => trivial
      rintro r ⟨⟨hreached, -, hgrown, -⟩, hread⟩
      refine ⟨hreached, fun hne q hq => ?_⟩
      -- the index block of the entry has just been read, and those above it before
      rcases Slot.above_of_child hindex hvalid hq with rfl | hq
      · rw [hgrown.slot n q hn hvalid hz]
        exact hgrown.readable _ (hself ▸ hread hne)
      · rw [hgrown.slot n q hn (Slot.above_valid hvalid hq).1 fun h0 => hz (slotZone_below hq h0)]
        exact hgrown.readable _ (hr.2 hb q hq)
  exact hway.imp fun r hr => hr.2

/-! ## Taking an entry -/

/-- The block with entry `i`, which is its entry `k`, is at hand in the buffer of `b`. Blocks may have been
created on the way. -/
structure AtHand (tight : Prop) (zoned : Nat → Prop) (s : Dev) (dir i b k : Nat) (s' : Dev) : Prop where
  inv : ZoneInv tight zoned noDead s'
  grown : Grown zoned dir s s'
  uptodate : (s'.cache.head b).uptodate = true
  limit : i / 64 < maxBlocks
  zone : s'.place dir i = (b, k)
  full : b ≠ 0
  index : ∀ p ∈ (Slot.ofBlock (i / 64)).above, s'.Readable (s'.slotZone dir p)

/-- `add_entry` has come to entry `i`, and the entries before it are taken. -/
structure Adding (tight : Prop) (zoned : Nat → Prop) (s : Dev) (dir i b k : Nat) (s' : Dev) : Prop where
  inv : ZoneInv tight zoned noDead s'
  grown : Grown zoned dir s s'
  uptodate : (s'.cache.head b).uptodate = true
  held : s'.held = Function.update s.held b (s.held b + 1)
  within : k ≤ 64 ∧ ∃ j, i = 64 * j + k ∧ j < maxBlocks ∧ s'.slotZone dir (Slot.ofBlock j) = b ∧
    ∀ p ∈ (Slot.ofBlock j).above, s'.Readable (s'.slotZone dir p)
  full : b ≠ 0
  taken : ∀ j < i, ¬ s.Usable dir j

theorem Adding.atHand (h : Adding tight zoned s dir i b k s') (hk : k < 64) :
    AtHand tight zoned s dir i b k s' := by
  obtain ⟨-, j, hij, hj, hb, hindex⟩ := h.within
  have hdiv : i / 64 = j := by omega
  refine ⟨h.inv, h.grown, h.uptodate, by rw [hdiv]; exact hj, ?_, h.full, by rw [hdiv]; exact hindex⟩
  unfold Dev.place
  rw [hdiv, hb, show i % 64 = k by omega]

theorem AtHand.entryNr (h : AtHand tight zoned s dir i b k s') (hdir : zoned dir) :
    s.entryNr dir i = entryInode (s'.cache.head b).data k := by
  have hplace := Prod.ext_iff.mp h.zone
  rw [← h.grown.entryNr hdir h.limit]
  exact entryNr_head h.uptodate hplace.1 h.full hplace.2

/-- The head of the loop of `add_entry`. -/
theorem addBlock_adding (hdir : zoned dir) (h : Adding tight zoned s dir i b k s') :
    Post (s'.addBlock dir i b k)
      (fun r => ∀ b' k', r.1 = some (b', k') → k' < 64 ∧ Adding tight zoned s dir i b' k' r.2) (fun _ => True) := by
  unfold addBlock
  by_cases hk : k < 64
  · rw [if_pos hk]
    refine Post.ret fun b' k' hsome => ?_
    cases hsome
    exact ⟨hk, h⟩
  · rw [if_neg hk]
    obtain ⟨hk64, j, hij, hj, hb, -⟩ := h.within
    have hused : s'.Used b := by
      rw [← hb]
      exact h.inv.used hdir (Slot.ofBlock_valid hj).1 (by rw [hb]; exact h.full)
    refine Post.bind ((brelse_zones h.inv h.grown hused h.held).mono (fun _ h => h) fun _ _ => trivial) ?_
    rintro s₁ ⟨h₁, hgrown₁, hheld₁, -⟩
    by_cases hlimit : i / 64 < maxBlocks
    · have hcreate := (createBlock_spec h₁ hdir hlimit).and (createBlock_index h₁ hdir hlimit)
      refine Post.bind (hcreate.mono (fun _ h => h) fun _ _ => trivial) ?_
      rintro ⟨z, s₂⟩ ⟨⟨h₂, hgrown₂, hheld₂, hself₂, -⟩, hindex₂⟩
      simp only at hself₂ hindex₂ ⊢
      split
      · exact Post.ret fun b' k' hsome => (by cases hsome)
      · next hz =>
        have hself := hself₂.resolve_left hz
        refine Post.bind ((bread_spec z s₂).mono (fun _ h => h) fun _ _ => trivial) ?_
        rintro ⟨got, s₃⟩ ⟨hsame₃, ⟨hgot, hup, hheld₃⟩ | ⟨hgot, -⟩⟩
        · cases hgot
          have hused₂ : s₂.Used z := by
            rw [hself]
            exact h₂.used hdir (Slot.ofBlock_valid hlimit).1 (by rw [← hself]; exact hz)
          refine Post.ret fun b' k' hsome => ?_
          cases hsome
          refine ⟨by decide, ?_, (hgrown₁.trans hgrown₂).trans hsame₃.grown, hup, ?_,
            ⟨by decide, i / 64, by omega, hlimit, ?_, fun p hp => ?_⟩, hz, h.taken⟩
          · refine h₂.same hsame₃ fun y hy hold => ?_
            rw [hheld₃]
            exact held_used hused₂ hy hold
          · rw [hheld₃, hheld₂, hheld₁]
          · rw [hsame₃.slotZone, ← hself]
          · rw [hsame₃.slotZone]
            exact hsame₃.readable (hindex₂ hz p hp)
        · cases hgot
          exact Post.stop trivial
    · unfold Dev.createBlock Dev.bmapCreate
      rw [if_pos (Nat.not_lt.mp hlimit)]
      exact Post.stop trivial

/-- The loop ends at the first entry that is free or beyond the end. -/
theorem addLoop_adding (hdir : zoned dir) (name : List UInt8) :
    ∀ (turns i b k : Nat) (s' : Dev), Adding tight zoned s dir i b k s' →
    Post (s'.addLoop dir name turns i b k)
      (fun r => ∀ b' k', r.1 = some (b', k') → ∃ i' s₁, s.FirstFree dir i' ∧ AtHand tight zoned s dir i' b' k' s₁ ∧
        r.2 = (s₁.extend dir i' b' k').modify b' (putName name k')) (fun _ => True)
  | 0, i, b, k, s', h => Post.stop trivial
  | turns + 1, i, b, k, s', h => by
    unfold addLoop
    refine Post.bind (addBlock_adding hdir h) ?_
    rintro ⟨found, s₁⟩ hfound
    cases found with
    | none => exact Post.ret fun b' k' hsome => (by cases hsome)
    | some bk =>
      obtain ⟨b', k'⟩ := bk
      obtain ⟨hk', h₁⟩ := hfound b' k' rfl
      have hat := h₁.atHand hk'
      simp only
      split
      · next hfree =>
        refine Post.ret fun b k hsome => ?_
        cases hsome
        refine ⟨i, s₁, ⟨?_, h₁.taken⟩, hat, rfl⟩
        unfold extend at hfree
        split at hfree
        · next hend => exact Or.inl (by rw [← h₁.grown.size]; exact hend)
        · exact Or.inr (by rw [hat.entryNr hdir]; exact hfree)
      · next htaken =>
        unfold extend at htaken ⊢
        by_cases hend : (s₁.inode dir).iSize ≤ 16 * i
        · -- an entry that has just been taken in is free
          rw [if_pos hend] at htaken
          refine absurd ?_ htaken
          show entryInode ((s₁.cache.set b' _).head b').data k' = 0
          rw [Cache.head_set_self]
          show word (setWord (8 * k') 0 _) (8 * k') = 0
          rw [word_setWord _ (by decide), if_pos rfl]
        · rw [if_neg hend] at htaken ⊢
          obtain ⟨hk64, j, hij, hblock⟩ := h₁.within
          refine addLoop_adding hdir name turns (i + 1) b' (k' + 1) s₁
            ⟨h₁.inv, h₁.grown, h₁.uptodate, h₁.held, ⟨by omega, j, by omega, hblock⟩, h₁.full, fun c hc => ?_⟩
          rcases Nat.lt_succ_iff_lt_or_eq.mp hc with hlt | rfl
          · exact h₁.taken c hlt
          · rintro (hsmall | hzero)
            · rw [← h₁.grown.size] at hsmall
              exact hend hsmall
            · rw [hat.entryNr hdir] at hzero
              exact htaken hzero

/-- `add_entry` takes the first entry that is free or beyond the end. -/
theorem addEntry_atHand (h : ZoneInv tight zoned noDead s) (hdir : zoned dir) (name : List UInt8) :
    Post (s.addEntry dir name)
      (fun r => ∀ b k, r.1 = some (b, k) → ∃ i s₁, s.FirstFree dir i ∧ AtHand tight zoned s dir i b k s₁ ∧
        r.2 = (s₁.extend dir i b k).modify b (putName (name.take nameLen) k)) (fun _ => True) := by
  unfold addEntry
  simp only
  split
  · exact Post.ret fun b k hsome => (by cases hsome)
  · split
    · exact Post.ret fun b k hsome => (by cases hsome)
    · next hz =>
      refine Post.bind ((bread_spec _ s).mono (fun _ h => h) fun _ _ => trivial) ?_
      rintro ⟨got, s₁⟩ ⟨hsame, ⟨hgot, hup, hheld⟩ | ⟨hgot, -⟩⟩
      · cases hgot
        have hvalid : Slot.Valid (.zone 0) := (by decide : 0 < 9)
        have hused : s.Used ((s.inode dir).iZone 0) := h.used hdir hvalid hz
        refine addLoop_adding hdir _ _ 0 _ 0 s₁ ⟨?_, hsame.grown, hup, hheld,
          ⟨by decide, 0, rfl, by decide, hsame.slotZone dir (.zone 0), fun p hp => absurd hp List.not_mem_nil⟩, hz,
          fun j hj => absurd hj (Nat.not_lt_zero j)⟩
        refine h.same hsame fun y hy hold => ?_
        rw [hheld]
        exact held_used hused hy hold
      · cases hgot
        exact Post.ret fun b k hsome => (by cases hsome)

/-! ## One entry changes -/

/-- The bytes of the block `b` change, and the size of the directory. -/
def Dev.rewritten (b : Nat) (f : (Nat → UInt8) → Nat → UInt8) (dir size : Nat) (s : Dev) : Dev :=
  { s with
    cache := s.cache.modify b f
    inode := Function.update s.inode dir { s.inode dir with iSize := size } }

theorem modify_rewritten (f g : (Nat → UInt8) → Nat → UInt8) (size : Nat) :
    (s.rewritten b f dir size).modify b g = s.rewritten b (fun data => g (f data)) dir size := by
  unfold Dev.rewritten Dev.modify Cache.modify
  simp only [Cache.head_set_self]
  unfold Cache.set
  rw [Function.update_idem]

theorem modify_eq_rewritten (dir : Nat) (g : (Nat → UInt8) → Nat → UInt8) :
    s.modify b g = s.rewritten b g dir (s.inode dir).iSize := by
  unfold Dev.rewritten Dev.modify
  rw [Function.update_eq_self]

/-- The bytes of a block after `add_entry` has cleared the inode number of a new entry, or not. -/
def cleared (new : Bool) (k : Nat) (data : Nat → UInt8) : Nat → UInt8 :=
  if new then setWord (8 * k) 0 data else data

theorem extend_modify (f : (Nat → UInt8) → Nat → UInt8) :
    (s.extend dir i b k).modify b f =
      s.rewritten b (fun data => f (cleared (decide ((s.inode dir).iSize ≤ 16 * i)) k data)) dir
        (max (s.inode dir).iSize (if (s.inode dir).iSize ≤ 16 * i then 16 * (i + 1) else 0)) := by
  unfold extend
  by_cases hend : (s.inode dir).iSize ≤ 16 * i
  · rw [if_pos hend, if_pos hend, Nat.max_eq_right (by omega)]
    unfold Dev.rewritten Dev.modify Cache.modify cleared
    simp only [Cache.head_set_self, hend, decide_true, if_true]
    unfold Cache.set
    rw [Function.update_idem]
  · rw [if_neg hend, if_neg hend, Nat.max_zero, modify_eq_rewritten dir]
    simp [cleared, hend]

/-- Of the directory only entry `i` changes. -/
structure Touched (tight : Prop) (zoned : Nat → Prop) (s : Dev) (dir i : Nat) (s' : Dev) : Prop where
  inv : ZoneInv tight zoned noDead s'
  limit : i / 64 < maxBlocks
  slot : ∀ sl, sl.Valid → s.slotZone dir sl ≠ 0 → s'.slotZone dir sl = s.slotZone dir sl
  readable : ∀ b, s.Readable b → s'.Readable b
  others : ∀ p, p / 1024 < maxBlocks → p / 16 ≠ i → s'.fileByte dir p = s.fileByte dir p
  full : s'.slotZone dir (Slot.ofBlock (i / 64)) ≠ 0
  block : s'.Readable (s'.slotZone dir (Slot.ofBlock (i / 64)))
  index : ∀ p ∈ (Slot.ofBlock (i / 64)).above, s'.Readable (s'.slotZone dir p)

theorem AtHand.touched (hdir : zoned dir) (h : AtHand tight zoned s dir i b k s')
    {f : (Nat → UInt8) → Nat → UInt8} (hf : ∀ data p, p / 16 ≠ k → f data p = data p) (size : Nat) :
    Touched tight zoned s dir i (s'.rewritten b f dir size) ∧ (s'.rewritten b f dir size).place dir i = (b, k) ∧
      ∀ q < 16, (s'.rewritten b f dir size).fileByte dir (16 * i + q) = f (s'.cache.head b).data (16 * k + q) := by
  obtain ⟨hb, hk⟩ := Prod.ext_iff.mp h.zone
  change s'.slotZone dir (Slot.ofBlock (i / 64)) = b at hb
  change i % 64 = k at hk
  obtain ⟨hvalid, hdata⟩ := Slot.ofBlock_valid h.limit
  have hwrote := Cache.modify_spec f h.uptodate
  have hcontents : ∀ z ≠ s'.slotZone dir (Slot.ofBlock (i / 64)),
      (s'.rewritten b f dir size).contents z = s'.contents z := by
    intro z hz
    rw [hb] at hz
    show (s'.cache.modify b f).contents z = _
    rw [hwrote.contents, Function.update_of_ne hz]
    rfl
  have hself : (s'.rewritten b f dir size).contents b = f (s'.cache.head b).data := by
    show (s'.cache.modify b f).contents b = _
    rw [hwrote.contents, Function.update_self, Cache.contents, if_pos h.uptodate]
  have hzone : ∀ m, ((s'.rewritten b f dir size).inode m).iZone = (s'.inode m).iZone := by
    intro m
    show (Function.update s'.inode dir _ m).iZone = _
    rcases eq_or_ne m dir with rfl | hm
    · rw [Function.update_self]
    · rw [Function.update_of_ne hm]
  have hslot : ∀ sl : Slot, sl.Valid → (s'.rewritten b f dir size).slotZone dir sl = s'.slotZone dir sl :=
    fun sl hsl => h.inv.slot_data hdir hvalid hdata hcontents (fun m _ => hzone m) hdir hsl
  have hread : ∀ z, s'.Readable z → (s'.rewritten b f dir size).Readable z :=
    fun z hz => hz.imp (hwrote.uptodate z) id
  have hinv : ZoneInv tight zoned noDead (s'.rewritten b f dir size) :=
    h.inv.wrote hdir hvalid hdata hcontents (fun m _ => hzone m) rfl rfl hwrote.held (hwrote.coherent h.inv.coherent)
  have hbyte : ∀ q < 16, (s'.rewritten b f dir size).fileByte dir (16 * i + q) = f (s'.cache.head b).data (16 * k + q) := by
    intro q hq
    unfold Dev.fileByte
    rw [show (16 * i + q) / 1024 = i / 64 by omega, show (16 * i + q) % 1024 = 16 * k + q by omega, hslot _ hvalid, hb,
      if_neg h.full, hself]
  refine ⟨⟨hinv, h.limit, fun sl hsl hz => ?_, fun z hz => hread z (h.grown.readable z hz), fun p hp hpi => ?_, ?_, ?_,
    fun p hp => ?_⟩, ?_, hbyte⟩
  · rw [hslot sl hsl, h.grown.slot dir sl hdir hsl hz]
  · rw [← h.grown.file dir p hdir hp]
    unfold Dev.fileByte
    rw [hslot _ (Slot.ofBlock_valid hp).1]
    dsimp only
    split
    · rfl
    · next hz =>
      by_cases hblock : p / 1024 = i / 64
      · rw [hblock, hb, hself, hf _ _ (by omega), Dev.contents, Cache.contents, if_pos h.uptodate]
      · rw [hcontents]
        intro heq
        exact hblock (ofBlock_inj (h.inv.inj hdir hdir (Slot.ofBlock_valid hp).1 hvalid hz heq).2)
  · rw [hslot _ hvalid, hb]
    exact h.full
  · rw [hslot _ hvalid, hb]
    exact Or.inl (hwrote.uptodate b h.uptodate)
  · rw [hslot _ (Slot.above_valid hvalid hp).1]
    exact hread _ (h.index p hp)
  · unfold Dev.place
    rw [hslot _ hvalid, hb, hk]

/-- The number and the name of an entry, from its bytes. -/
theorem entry_of_bytes {data : Nat → UInt8} (h : ∀ q < 16, s.fileByte dir (16 * i + q) = data (16 * k + q)) :
    s.entryNr dir i = entryInode data k ∧
      s.entryName dir i = (List.range nameLen).map fun p => data (16 * k + 2 + p) := by
  constructor
  · have hlow := h 0 (by decide)
    have hhigh := h 1 (by decide)
    unfold Dev.entryNr entryInode Dev.word
    rw [show 2 * (8 * i) = 16 * i + 0 by omega, show 2 * (8 * k) = 16 * k + 0 by omega, hlow, hhigh]
  · refine List.map_congr_left fun p hp => ?_
    have hlen : p < 14 := List.mem_range.mp hp
    rw [Nat.add_assoc, Nat.add_assoc]
    exact h (2 + p) (by omega)

theorem setWord_others {v p : Nat} (data : Nat → UInt8) (hp : p / 16 ≠ k ∨ 2 ≤ p % 16) :
    setWord (8 * k) v data p = data p := by
  unfold setWord
  rw [if_neg (by omega), if_neg (by omega)]

theorem putName_others {p : Nat} (data : Nat → UInt8) (hp : p / 16 ≠ k) : putName name k data p = data p := by
  unfold putName nameLen
  rw [if_neg (by omega)]

theorem cleared_others {p : Nat} (new : Bool) (data : Nat → UInt8) (hp : p / 16 ≠ k) :
    cleared new k data p = data p := by
  unfold cleared
  split
  · exact setWord_others data (Or.inl hp)
  · rfl

/-- The name in an entry that `add_entry` has filled. -/
theorem takeWhile_put (hlen : name.length ≤ nameLen) (hzero : 0 ∉ name) :
    ((List.range nameLen).map fun p => name.getD p 0).takeWhile (· != 0) = name := by
  rw [takeWhile_eq_iff hzero, prefix_map_range hlen]
  refine ⟨fun p _ => rfl, ?_⟩
  rw [List.getD_eq_getElem?_getD, List.getElem?_map]
  by_cases hshort : name.length < nameLen
  · simp [hshort]
  · simp [hshort]

theorem Touched.others_eq (h : Touched tight zoned s dir i s') {j : Nat} (hj : j ≠ i) (hlimit : j / 64 < maxBlocks) :
    s'.entryNr dir j = s.entryNr dir j ∧ s'.nameOf dir j = s.nameOf dir j := by
  have hbytes : ∀ q < 16, s'.fileByte dir (16 * j + q) = s.fileByte dir (16 * j + q) :=
    fun q hq => h.others _ (by omega) (by omega)
  obtain ⟨hnr, hname⟩ := entry_of_bytes hbytes
  obtain ⟨hnr₀, hname₀⟩ := @entry_of_bytes s dir j j (s.fileByte dir) fun q _ => rfl
  unfold Dev.nameOf
  exact ⟨hnr.trans hnr₀.symm, by rw [hname, hname₀]⟩

/-- The entry that `add_entry` has filled, with its inode number. -/
theorem AtHand.added (hdir : zoned dir) (h : AtHand tight zoned s dir i b k s') {nr : Nat} (hnr : nr < 2 ^ 16)
    (hzero : 0 ∉ name) :
    ∃ s₂, s₂ = ((s'.extend dir i b k).modify b (putName (name.take nameLen) k)).putInode b k nr ∧
      Touched tight zoned s dir i s₂ ∧ s₂.place dir i = (b, k) ∧ s₂.entryNr dir i = nr ∧
      s₂.nameOf dir i = name.take nameLen ∧
      (s₂.inode dir).iSize = max (s.inode dir).iSize (if (s.inode dir).iSize ≤ 16 * i then 16 * (i + 1) else 0) := by
  refine ⟨_, rfl, ?_⟩
  rw [extend_modify, Dev.putInode, modify_rewritten, h.grown.size]
  obtain ⟨htouched, hplace, hbytes⟩ := h.touched hdir
    (f := fun data => setWord (8 * k) nr (putName (name.take nameLen) k (cleared
      (decide ((s.inode dir).iSize ≤ 16 * i)) k data)))
    (fun data p hp => by rw [setWord_others _ (Or.inl hp), putName_others _ hp, cleared_others _ _ hp])
    (max (s.inode dir).iSize (if (s.inode dir).iSize ≤ 16 * i then 16 * (i + 1) else 0))
  obtain ⟨hself, hname⟩ := entry_of_bytes hbytes
  refine ⟨htouched, hplace, ?_, ?_, ?_⟩
  · rw [hself]
    unfold entryInode
    rw [word_setWord _ hnr, if_pos rfl]
  · unfold Dev.nameOf
    rw [hname]
    refine Eq.trans ?_ (takeWhile_put (List.length_take_le ..) fun hmem => hzero (List.mem_of_mem_take hmem))
    congr 1
    refine List.map_congr_left fun p hp => ?_
    have hlen : p < 14 := List.mem_range.mp hp
    rw [setWord_others _ (Or.inr (by omega))]
    unfold putName nameLen
    rw [if_pos (by omega), Nat.add_sub_cancel_left]
  · show (Function.update s'.inode dir _ dir).iSize = _
    rw [Function.update_self]

/-- The entry whose inode number is cleared. -/
theorem AtHand.removed (hdir : zoned dir) (h : AtHand tight zoned s dir i b k s') :
    Touched tight zoned s dir i (s'.putInode b k 0) ∧ (s'.putInode b k 0).entryNr dir i = 0 ∧
      ((s'.putInode b k 0).inode dir).iSize = (s.inode dir).iSize := by
  rw [Dev.putInode, modify_eq_rewritten dir]
  obtain ⟨htouched, -, hbytes⟩ := h.touched hdir (fun data p hp => setWord_others (v := 0) data (Or.inl hp))
    (s'.inode dir).iSize
  refine ⟨htouched, ?_, ?_⟩
  · rw [(entry_of_bytes hbytes).1]
    unfold entryInode
    rw [word_setWord _ (by decide), if_pos rfl]
  · show (Function.update s'.inode dir _ dir).iSize = _
    rw [Function.update_self]
    exact h.grown.size

/-! ## The map that the entries stand for -/

theorem entryFor_congr (h : ∀ j, j < s'.entries dir ∧ s'.Named dir name j ↔ j < s.entries dir ∧ s.Named dir name j) :
    s'.entryFor dir name = s.entryFor dir name := by
  refine Option.ext fun i => ?_
  rw [entryFor_eq_some, entryFor_eq_some]
  constructor
  · rintro ⟨hi, hnamed, hfirst⟩
    have hold := (h i).mp ⟨hi, hnamed⟩
    exact ⟨hold.1, hold.2, fun j hj hn => hfirst j hj ((h j).mpr ⟨by omega, hn⟩).2⟩
  · rintro ⟨hi, hnamed, hfirst⟩
    have hnew := (h i).mpr ⟨hi, hnamed⟩
    exact ⟨hnew.1, hnew.2, fun j hj hn => hfirst j hj ((h j).mp ⟨by omega, hn⟩).2⟩

/-- Only the first fourteen characters of a name count. -/
theorem entryFor_take {other : List UInt8} (h : other.take nameLen = name.take nameLen) :
    s.entryFor dir other = s.entryFor dir name := by
  have hnamed : ∀ i, decide (s.Named dir other i) = decide (s.Named dir name i) := by
    refine fun i => decide_eq_decide.mpr ?_
    unfold Dev.Named
    rw [h]
  unfold Dev.entryFor
  simp only [hnamed]

theorem Dev.Mapped.limit (h : s.Mapped dir) {j : Nat} (hj : j < s.entries dir) : j / 64 < maxBlocks := by
  unfold Dev.entries at hj
  exact (h (j / 64) (by omega)).1

/-- The look-up gives what the map has for the name. -/
theorem lookup_eq (hmap : s.Mapped dir) (hne : name ≠ []) (hzero : 0 ∉ name) :
    s.lookup dir name = s.directory dir name := by
  obtain ⟨⟨found, s₁⟩, hrun, hfound⟩ := (findEntry_spec hmap hne hzero).returns
  unfold Dev.lookup Dev.directory
  rw [hrun]
  have heq := hfound.eq
  simp only at heq
  cases hentry : s.entryFor dir name with
  | none =>
    rw [hentry] at heq
    subst heq
    rfl
  | some i =>
    rw [hentry] at heq
    subst heq
    obtain ⟨hi, hnamed, -⟩ := entryFor_eq_some.mp hentry
    have hblock := hmap (i / 64) (by unfold Dev.entries at hi; omega)
    have hup := (hfound.held _ _ rfl).1
    have hzone : s₁.slotZone dir (Slot.ofBlock (i / 64)) = s.slotZone dir (Slot.ofBlock (i / 64)) :=
      hfound.same.slotZone dir _
    show some (entryInode (s₁.cache.head (s.slotZone dir (Slot.ofBlock (i / 64)))).data (i % 64)) =
      some (s.entryNr dir i)
    rw [← hfound.same.entryNr, entryNr_head hup hzone hblock.2.1 rfl]

/-- Entries that have whole sixteen bytes. -/
theorem entries_extended (haligned : 16 ∣ (s.inode dir).iSize) (hfirst : s.FirstFree dir i)
    (hsize : (s'.inode dir).iSize = max (s.inode dir).iSize (if (s.inode dir).iSize ≤ 16 * i then 16 * (i + 1) else 0)) :
    16 ∣ (s'.inode dir).iSize ∧ s'.entries dir = max (s.entries dir) (i + 1) := by
  obtain ⟨n, hn⟩ := haligned
  have hle : i ≤ n := by
    by_contra hlt
    exact hfirst.2 n (by omega) (Or.inl (by omega))
  unfold Dev.entries
  rw [hsize, hn, Nat.mul_div_cancel_left n (by decide)]
  split
  · rw [Nat.mul_max_mul_left]
    exact ⟨⟨_, rfl⟩, Nat.mul_div_cancel_left _ (by decide)⟩
  · next hlt =>
    have hin : i < n := by omega
    rw [Nat.max_zero, Nat.max_eq_left hin]
    exact ⟨⟨n, rfl⟩, Nat.mul_div_cancel_left n (by decide)⟩

theorem Touched.mapped (h : Touched tight zoned s dir i s') (hmap : s.Mapped dir)
    (hi : 16 * i ≤ (s.inode dir).iSize) (hsize : (s'.inode dir).iSize ≤ max (s.inode dir).iSize (16 * (i + 1))) :
    s'.Mapped dir := by
  intro j hj
  by_cases hold : 1024 * j < (s.inode dir).iSize
  · obtain ⟨hlimit, hz, hread, habove⟩ := hmap j hold
    have hslot := h.slot _ (Slot.ofBlock_valid hlimit).1 hz
    refine ⟨hlimit, by rw [hslot]; exact hz, by rw [hslot]; exact h.readable _ hread, fun p hp => ?_⟩
    rw [h.slot p (Slot.above_valid (Slot.ofBlock_valid hlimit).1 hp).1 fun h0 => hz (slotZone_below hp h0)]
    exact h.readable _ (habove p hp)
  · -- the block of the new entry
    obtain rfl : j = i / 64 := by omega
    exact ⟨h.limit, h.full, h.block, h.index⟩

/-- A name that `add_entry` has entered. -/
structure Added (tight : Prop) (zoned : Nat → Prop) (s : Dev) (dir : Nat) (name : List UInt8) (nr : Nat)
    (place : Nat × Nat) (s' : Dev) : Prop where
  inv : ZoneInv tight zoned noDead s'
  mapped : s'.Mapped dir
  aligned : 16 ∣ (s'.inode dir).iSize
  entry : ∃ i, s.FirstFree dir i ∧ s'.entryFor dir name = some i ∧ s'.place dir i = place ∧
    (s'.inode dir).iSize = max (s.inode dir).iSize (16 * (i + 1))
  directory : ∀ other, s'.directory dir other =
    if other.take nameLen = name.take nameLen then some nr else s.directory dir other
  distinct : s.Distinct dir → s'.Distinct dir

/-- A name whose entry was cleared. -/
structure Removed (tight : Prop) (zoned : Nat → Prop) (s : Dev) (dir : Nat) (name : List UInt8) (s' : Dev) : Prop where
  inv : ZoneInv tight zoned noDead s'
  mapped : s'.Mapped dir
  size : (s'.inode dir).iSize = (s.inode dir).iSize
  others : ∀ other, other.take nameLen ≠ name.take nameLen → s'.directory dir other = s.directory dir other
  self : s.Distinct dir → s'.directory dir name = none
  distinct : s.Distinct dir → s'.Distinct dir

theorem directory_congr {other : List UInt8} (hentry : s'.entryFor dir other = s.entryFor dir other)
    (hnr : ∀ i, s.entryFor dir other = some i → s'.entryNr dir i = s.entryNr dir i) :
    s'.directory dir other = s.directory dir other := by
  unfold Dev.directory
  rw [hentry]
  cases hfound : s.entryFor dir other with
  | none => rfl
  | some i => rw [Option.map_some, Option.map_some, hnr i hfound]

/-- What a changed entry means for a name that it does not have, before or after. -/
theorem Touched.directory_other (h : Touched tight zoned s dir i s') (hmap : s.Mapped dir)
    {other : List UInt8} (hbefore : ¬ (i < s.entries dir ∧ s.Named dir other i)) (hafter : ¬ s'.Named dir other i)
    (hentries : ∀ j ≠ i, j < s'.entries dir ↔ j < s.entries dir) :
    s'.directory dir other = s.directory dir other := by
  have hsame : ∀ j ≠ i, j < s.entries dir → s'.entryNr dir j = s.entryNr dir j ∧ s'.nameOf dir j = s.nameOf dir j :=
    fun j hj hlt => h.others_eq hj (hmap.limit hlt)
  have hentry : s'.entryFor dir other = s.entryFor dir other := by
    refine entryFor_congr fun j => ?_
    rcases eq_or_ne j i with rfl | hj
    · exact ⟨fun hnew => absurd hnew.2 hafter, fun hold => absurd hold hbefore⟩
    · rw [hentries j hj]
      refine and_congr_right fun hlt => ?_
      unfold Dev.Named
      rw [(hsame j hj hlt).1, (hsame j hj hlt).2]
  refine directory_congr hentry fun j hj => ?_
  obtain ⟨hlt, hnamed, -⟩ := entryFor_eq_some.mp hj
  refine (hsame j ?_ hlt).1
  rintro rfl
  exact hbefore ⟨hlt, hnamed⟩

theorem Touched.distinct (h : Touched tight zoned s dir i s') (hmap : s.Mapped dir)
    (hentries : ∀ j ≠ i, j < s'.entries dir ↔ j < s.entries dir)
    (hnew : s'.entryNr dir i ≠ 0 → ∀ j < s.entries dir, s.entryNr dir j ≠ 0 → s.nameOf dir j ≠ s'.nameOf dir i)
    (hdistinct : s.Distinct dir) : s'.Distinct dir := by
  have hsame : ∀ j ≠ i, j < s.entries dir → s'.entryNr dir j = s.entryNr dir j ∧ s'.nameOf dir j = s.nameOf dir j :=
    fun j hj hlt => h.others_eq hj (hmap.limit hlt)
  -- the changed entry shares its name with no other
  have hself : ∀ j ≠ i, j < s'.entries dir → s'.entryNr dir i ≠ 0 → s'.entryNr dir j ≠ 0 →
      s'.nameOf dir j ≠ s'.nameOf dir i := by
    intro j hj hlt hi hlive
    rw [hentries j hj] at hlt
    rw [(hsame j hj hlt).1] at hlive
    rw [(hsame j hj hlt).2]
    exact hnew hi j hlt hlive
  intro a ha c hc hlive hlive' hname
  rcases eq_or_ne a i with rfl | hai
  · rcases eq_or_ne c a with rfl | hca
    · rfl
    · exact absurd hname.symm (hself c hca hc hlive hlive')
  · rcases eq_or_ne c i with rfl | hci
    · exact absurd hname (hself a hai ha hlive' hlive)
    · rw [hentries a hai] at ha
      rw [hentries c hci] at hc
      rw [(hsame a hai ha).1] at hlive
      rw [(hsame c hci hc).1] at hlive'
      rw [(hsame a hai ha).2, (hsame c hci hc).2] at hname
      exact hdistinct a ha c hc hlive hlive' hname

theorem link_added (h : ZoneInv tight zoned noDead s) (hdir : zoned dir) (hmap : s.Mapped dir)
    (haligned : 16 ∣ (s.inode dir).iSize) (hzero : 0 ∉ name) (habsent : s.entryFor dir name = none) {nr : Nat}
    (hnr : nr < 2 ^ 16) (hne : nr ≠ 0) :
    Post (s.link dir name nr) (fun r => ∀ bk, r.1 = some bk → Added tight zoned s dir name nr bk r.2)
      (fun _ => True) := by
  unfold Dev.link
  refine Post.bind (addEntry_atHand h hdir name) ?_
  rintro ⟨found, s₀⟩ hr
  cases found with
  | none => exact Post.ret fun bk hsome => (by cases hsome)
  | some bk =>
  obtain ⟨b, k⟩ := bk
  obtain ⟨i, s₁, hfirst, hat, heq⟩ := hr b k rfl
  refine Post.ret fun bk hsome => ?_
  cases hsome
  simp only at heq ⊢
  obtain ⟨s₂, heq₂, htouched, hplace, hself, hname, hsize⟩ := hat.added hdir hnr hzero
  rw [heq, ← heq₂]
  obtain ⟨haligned', hentries⟩ := entries_extended haligned hfirst hsize
  have hend : 16 * i ≤ (s.inode dir).iSize := by
    obtain ⟨n, hn⟩ := haligned
    by_contra hlt
    exact hfirst.2 n (by omega) (Or.inl (by omega))
  have hsize' : (s₂.inode dir).iSize = max (s.inode dir).iSize (16 * (i + 1)) := by
    obtain ⟨n, hn⟩ := haligned
    rw [hsize]
    split
    · rfl
    · have hin : 16 * (i + 1) ≤ (s.inode dir).iSize := by omega
      rw [Nat.max_zero, Nat.max_eq_left hin]
  have hmap' : s₂.Mapped dir := htouched.mapped hmap hend (Nat.le_of_eq hsize')
  -- the entry was free or not there at all
  have hbefore : ∀ other, ¬ (i < s.entries dir ∧ s.Named dir other i) := by
    rintro other ⟨hlt, hnamed⟩
    unfold Dev.entries at hlt
    exact hfirst.1.elim (fun hbeyond => by omega) hnamed.1
  have hcount : ∀ j ≠ i, j < s₂.entries dir ↔ j < s.entries dir := by
    intro j hj
    have hin : i ≤ s.entries dir := by
      refine (Nat.le_div_iff_mul_le (by decide)).mpr ?_
      rwa [Nat.mul_comm]
    rw [hentries, lt_max_iff]
    omega
  have hentry : s₂.entryFor dir name = some i := by
    refine entryFor_eq_some.mpr ⟨by omega, ⟨by rw [hself]; exact hne, hname⟩, fun j hj hnamed => ?_⟩
    have hlt : j < s.entries dir := (hcount j (by omega)).mp (by omega)
    obtain ⟨hnr', hname'⟩ := htouched.others_eq (by omega) (hmap.limit hlt)
    refine entryFor_eq_none.mp habsent j hlt ?_
    unfold Dev.Named at hnamed ⊢
    rwa [hnr', hname'] at hnamed
  refine ⟨htouched.inv, hmap', haligned', ⟨i, hfirst, hentry, hplace, hsize'⟩, fun other => ?_,
    htouched.distinct hmap hcount fun _ j hj hlive hsame => entryFor_eq_none.mp habsent j hj ⟨hlive, hsame.trans hname⟩⟩
  split
  · next hsame =>
    unfold Dev.directory
    rw [entryFor_take hsame, hentry, Option.map_some, hself]
  · next hdiff =>
    refine htouched.directory_other hmap (hbefore other) (fun hnamed => hdiff ?_) hcount
    rw [← hnamed.2, hname]

theorem unlink_removed (h : ZoneInv tight zoned noDead s) (hdir : zoned dir) (hmap : s.Mapped dir)
    (hne : name ≠ []) (hzero : 0 ∉ name) :
    Post (s.unlink dir name) (fun r => r.1 = (s.entryFor dir name).map (s.place dir) ∧
      ∀ bk, r.1 = some bk → Removed tight zoned s dir name r.2) (fun _ => False) := by
  unfold Dev.unlink
  refine Post.bind (findEntry_spec hmap hne hzero) ?_
  rintro ⟨found, s₁⟩ hfound
  cases found with
  | none => exact Post.ret ⟨hfound.eq, fun bk hsome => (by cases hsome)⟩
  | some bk =>
  obtain ⟨b, k⟩ := bk
  have heq := hfound.eq
  refine Post.ret ⟨heq, fun bk hsome => ?_⟩
  cases hsome
  cases hentry : s.entryFor dir name with
  | none =>
    rw [hentry] at heq
    cases heq
  | some i =>
    rw [hentry, Option.map_some, Option.some_inj] at heq
    obtain ⟨hi, hnamed, -⟩ := entryFor_eq_some.mp hentry
    obtain ⟨hup, hheld⟩ := hfound.held b k rfl
    have hsame := hfound.same
    have hlimit := hmap.limit hi
    obtain ⟨-, hz, -, habove⟩ := hmap (i / 64) (by unfold Dev.entries at hi; omega)
    have hzone : b = s.slotZone dir (Slot.ofBlock (i / 64)) := congrArg Prod.fst heq
    have hused : s.Used b := by
      rw [hzone]
      exact h.used hdir (Slot.ofBlock_valid hlimit).1 hz
    have hat : AtHand tight zoned s dir i b k s₁ := by
      refine ⟨h.same hsame fun y hy hold => ?_, hsame.grown, hup, hlimit, ?_, by rw [hzone]; exact hz, fun p hp => ?_⟩
      · rw [hheld]
        exact held_used hused hy hold
      · unfold Dev.place
        rw [hsame.slotZone]
        exact heq.symm
      · rw [hsame.slotZone]
        exact hsame.readable (habove p hp)
    obtain ⟨htouched, hself, hsize⟩ := hat.removed hdir
    have hmap' : (s₁.putInode b k 0).Mapped dir :=
      htouched.mapped hmap (by unfold Dev.entries at hi; omega) (by rw [hsize]; omega)
    have hcount : ∀ j ≠ i, j < (s₁.putInode b k 0).entries dir ↔ j < s.entries dir := by
      intro j _
      unfold Dev.entries
      rw [hsize]
    refine ⟨htouched.inv, hmap', hsize, fun other hother => ?_, fun hdistinct => ?_,
      htouched.distinct hmap hcount fun hlive => absurd hself hlive⟩
    · refine htouched.directory_other hmap (fun hbefore => hother ?_) (fun hafter => hafter.1 hself) hcount
      rw [← hbefore.2.2, hnamed.2]
    · -- another entry with the name would have been found there as well
      have hnone : (s₁.putInode b k 0).entryFor dir name = none := by
        refine entryFor_eq_none.mpr fun j hj hafter => ?_
        rcases eq_or_ne j i with rfl | hji
        · exact hafter.1 hself
        · have hlt := (hcount j hji).mp hj
          obtain ⟨hnr', hname'⟩ := htouched.others_eq hji (hmap.limit hlt)
          unfold Dev.Named at hafter
          rw [hnr', hname'] at hafter
          exact hji (hdistinct j hlt i hi hafter.1 hnamed.1 (hafter.2.trans hnamed.2.symm))
      unfold Dev.directory
      rw [hnone]
      rfl

/-- A directory whose blocks are mapped and readable is a finite map: `find_entry` finds the names it has, a name
entered is found and replaces nothing, and a name whose entry is cleared is gone. -/
theorem directory_finite_map (hmap : s.Mapped dir) (hne : name ≠ []) (hzero : 0 ∉ name) :
    Post (s.findEntry dir name) (Found s dir name) (fun _ => False) ∧
    ((s.entryFor dir name).isSome = true ↔ ∃ i < s.entries dir, s.Named dir name i) ∧
    s.lookup dir name = s.directory dir name ∧
    (ZoneInv tight zoned noDead s → zoned dir →
      (16 ∣ (s.inode dir).iSize → s.entryFor dir name = none → ∀ nr < 2 ^ 16, nr ≠ 0 →
        Post (s.link dir name nr)
          (fun r => ∀ bk, r.1 = some bk → Added tight zoned s dir name nr bk r.2 ∧
            Post (r.2.findEntry dir name) (fun r' => r'.1 = some bk) (fun _ => False) ∧
            ∀ other, other ≠ [] → 0 ∉ other → r.2.lookup dir other =
              if other.take nameLen = name.take nameLen then some nr else s.lookup dir other)
          (fun _ => True)) ∧
      Post (s.unlink dir name)
        (fun r => r.1 = (s.entryFor dir name).map (s.place dir) ∧ ∀ bk, r.1 = some bk →
          Removed tight zoned s dir name r.2 ∧ (s.Distinct dir → r.2.lookup dir name = none) ∧
          ∀ other, other ≠ [] → 0 ∉ other → other.take nameLen ≠ name.take nameLen →
            r.2.lookup dir other = s.lookup dir other)
        (fun _ => False)) := by
  refine ⟨findEntry_spec hmap hne hzero, ?_, lookup_eq hmap hne hzero, fun h hdir => ⟨?_, ?_⟩⟩
  · rw [← Option.ne_none_iff_isSome, Ne, entryFor_eq_none]
    push Not
    rfl
  · intro haligned habsent nr hnr hnr₀
    refine (link_added h hdir hmap haligned hzero habsent hnr hnr₀).imp fun r hr bk hsome => ?_
    have hadded := hr bk hsome
    refine ⟨hadded, (findEntry_spec hadded.mapped hne hzero).imp fun r' hfound => ?_, fun other hother hother₀ => ?_⟩
    · obtain ⟨i, -, hentry, hplace, -⟩ := hadded.entry
      rw [hfound.eq, hentry, Option.map_some, hplace]
    · rw [lookup_eq hadded.mapped hother hother₀, lookup_eq hmap hother hother₀]
      exact hadded.directory other
  · refine (unlink_removed h hdir hmap hne hzero).imp fun r hr => ⟨hr.1, fun bk hsome => ?_⟩
    have hremoved := hr.2 bk hsome
    refine ⟨hremoved, fun hdistinct => ?_, fun other hother hother₀ hdiff => ?_⟩
    · rw [lookup_eq hremoved.mapped hne hzero]
      exact hremoved.self hdistinct
    · rw [lookup_eq hremoved.mapped hother hother₀, lookup_eq hmap hother hother₀]
      exact hremoved.others other hdiff

/-- A full directory, with a zone left for one more block. -/
def nearlyFull : Dev := fullDirectory 7 (fun _ => true) false

theorem directory_finite_map_full :
    nearlyFull.Mapped 1 ∧ nearlyFull.entryFor 1 [35] = none ∧
    nearlyFull.lookup 1 [35] = nearlyFull.directory 1 [35] ∧
    Post (nearlyFull.link 1 [35] 2)
      (fun r => ∀ bk, r.1 = some bk → Added True nearlyFull.zoned nearlyFull 1 [35] 2 bk r.2 ∧
        Post (r.2.findEntry 1 [35]) (fun r' => r'.1 = some bk) (fun _ => False) ∧
        ∀ other, other ≠ [] → 0 ∉ other → r.2.lookup 1 other =
          if other.take nameLen = [35].take nameLen then some 2 else nearlyFull.lookup 1 other)
      (fun _ => True) := by
  have hsize : (nearlyFull.inode 1).iSize = 1024 := rfl
  have hmap : nearlyFull.Mapped 1 := by
    intro j hj
    obtain rfl : j = 0 := by omega
    exact ⟨by decide, by decide, Or.inr rfl, fun p hp => absurd hp List.not_mem_nil⟩
  have habsent : nearlyFull.entryFor 1 [35] = none := by decide +kernel
  have hall := @directory_finite_map True nearlyFull.zoned _ 1 [35] hmap (by decide) (by decide)
  have hzones : nearlyFull.Consistent := full_consistent (Or.inr rfl)
  have hparent : nearlyFull.Parent 1 := full_parent (Or.inr rfl)
  refine ⟨hmap, habsent, hall.2.2.1, ?_⟩
  exact (hall.2.2.2 hzones.zones hparent.zoned).1 (by rw [hsize]; decide) habsent 2 (by decide) (by decide)

/-! ## Runs -/

/-- What the callers of `find_entry` and `add_entry` do to a directory. -/
inductive DirCall where
  | link (name : List UInt8) (nr : Nat)
  | unlink (name : List UInt8)
  | release (b : Nat)

/-- A name is entered where it was not found before, with the number of an inode. -/
inductive DirCall.Step (dir : Nat) (s : Dev) : DirCall → Dev → Prop
  | link {name : List UInt8} {nr : Nat} {bk : Nat × Nat} {s' : Dev} (hname : name ≠ [] ∧ 0 ∉ name)
      (hnr : nr ≠ 0 ∧ nr < 2 ^ 16) (habsent : s.lookup dir name = none)
      (h : s.link dir name nr = .ok (some bk, s')) : Step dir s (.link name nr) s'
  | unlink {name : List UInt8} {bk : Nat × Nat} {s' : Dev} (hname : name ≠ [] ∧ 0 ∉ name)
      (h : s.unlink dir name = .ok (some bk, s')) : Step dir s (.unlink name) s'
  | release {b : Nat} {s' : Dev} (h : s.brelse b = .ok s') : Step dir s (.release b) s'

/-- What the calls are to the map. -/
def DirCall.apply (m : List UInt8 → Option Nat) : DirCall → List UInt8 → Option Nat
  | .link name nr => fun other => if other.take nameLen = name.take nameLen then some nr else m other
  | .unlink name => fun other => if other.take nameLen = name.take nameLen then none else m other
  | .release _ => m

/-- A directory in order. -/
structure Tidy (tight : Prop) (zoned : Nat → Prop) (dir : Nat) (s : Dev) : Prop where
  inv : ZoneInv tight zoned noDead s
  mapped : s.Mapped dir
  aligned : 16 ∣ (s.inode dir).iSize
  distinct : s.Distinct dir

theorem directory_take {other : List UInt8} (h : other.take nameLen = name.take nameLen) :
    s.directory dir other = s.directory dir name := by
  unfold Dev.directory
  rw [entryFor_take h]

theorem Dev.Same.directory (h : Same s s') : s'.directory dir name = s.directory dir name := by
  have hentries : s'.entries dir = s.entries dir := by
    unfold Dev.entries
    rw [h.inode]
  refine directory_congr (entryFor_congr fun j => ?_) fun i _ => h.entryNr dir i
  unfold Dev.Named nameOf
  rw [hentries, h.entryNr, h.entryName]

theorem Tidy.same (h : Tidy tight zoned dir s) (hsame : Same s s') (hheld : ∀ z, s.held z = 0 → s'.held z = 0) :
    Tidy tight zoned dir s' := by
  refine ⟨h.inv.same hsame fun z _ hz => hheld z hz, fun j hj => ?_, by rw [hsame.inode]; exact h.aligned, ?_⟩
  · rw [hsame.inode] at hj
    obtain ⟨hlimit, hz, hread, habove⟩ := h.mapped j hj
    rw [hsame.slotZone]
    exact ⟨hlimit, hz, hsame.readable hread, fun p hp => by rw [hsame.slotZone]; exact hsame.readable (habove p hp)⟩
  · intro i hi j hj
    unfold Dev.entries at hi hj
    unfold nameOf
    rw [hsame.inode] at hi hj
    rw [hsame.entryNr, hsame.entryNr, hsame.entryName, hsame.entryName]
    exact h.distinct i hi j hj

theorem Dev.directory_eq_none (h : s.directory dir name = none) : s.entryFor dir name = none :=
  Option.map_eq_none_iff.mp h

theorem DirCall.Step.refines {c : DirCall} (hdir : zoned dir) (h : Tidy tight zoned dir s) (hstep : c.Step dir s s') :
    Tidy tight zoned dir s' ∧ s'.directory dir = c.apply (s.directory dir) := by
  cases hstep with
  | link hname hnr habsent hrun =>
    rw [lookup_eq h.mapped hname.1 hname.2] at habsent
    have hadded := (link_added h.inv hdir h.mapped h.aligned hname.2 (directory_eq_none habsent) hnr.2 hnr.1).of_ok _ hrun
      _ rfl
    exact ⟨⟨hadded.inv, hadded.mapped, hadded.aligned, hadded.distinct h.distinct⟩, funext hadded.directory⟩
  | unlink hname hrun =>
    have hremoved := ((unlink_removed h.inv hdir h.mapped hname.1 hname.2).of_ok _ hrun).2 _ rfl
    refine ⟨⟨hremoved.inv, hremoved.mapped, by rw [hremoved.size]; exact h.aligned, hremoved.distinct h.distinct⟩, ?_⟩
    funext other
    show _ = if _ then _ else _
    split
    · next hsame =>
      rw [directory_take hsame]
      exact hremoved.self h.distinct
    · next hdiff => exact hremoved.others other hdiff
  | @release b _ hrun =>
    have hheld : s.held b ≠ 0 := by
      intro hzero
      have hpanic : s.cache.brelse b = .error "Trying to free free buffer" := if_pos hzero
      unfold Dev.brelse at hrun
      rw [hpanic] at hrun
      cases hrun
    obtain ⟨n, hn⟩ := Nat.exists_eq_succ_of_ne_zero hheld
    obtain ⟨hsame, hback⟩ := (brelse_spec hn).of_ok _ hrun
    refine ⟨h.same hsame fun z hz => ?_, funext fun other => hsame.directory⟩
    rw [hback, Function.update_of_ne, hz]
    rintro rfl
    exact hheld hz

/-- In any run the directory is the map that the calls make. -/
theorem directory_run {calls : List DirCall} (hdir : zoned dir) (h : Tidy tight zoned dir s)
    (hrun : Run (fun s c s' => DirCall.Step dir s c s') s calls s') :
    Tidy tight zoned dir s' ∧ s'.directory dir = calls.foldl DirCall.apply (s.directory dir) := by
  refine Run.refine (R := fun s m => Tidy tight zoned dir s ∧ s.directory dir = m) ?_ ⟨h, rfl⟩ hrun
  rintro s c s' m ⟨htidy, rfl⟩ hstep
  exact hstep.refines hdir htidy

/-! ## Directories in which it is not so -/

/-- The root directory has `size` bytes, and `bytes` in zone 5, which is its second block too if it is
`shared`. -/
def oddDirectory (size : Nat) (shared : Bool) (bytes : Nat → UInt8) : Dev where
  cache := ⟨fun _ => none, fun b => if b = 5 then bytes else fun _ => 0, fun _ => true, fun _ _ => 0⟩
  super := ⟨3, 7, 1, 1, 5⟩
  zmap j := j != 2
  imap m := m != 3
  inode m :=
    if m = 1 then ⟨0o040755, 0, 0, size, 2, fun i => if i = 0 ∨ shared ∧ i = 1 then 5 else 0, 1⟩ else Inode.zero

/-- Two entries, of inodes 1 and 2, with the name `a`, or without a name. -/
def twice (c : UInt8) (p : Nat) : UInt8 := if p = 0 then 1 else if p = 16 then 2 else if p % 16 = 2 then c else 0

/-- A name goes into an entry that lies only partly below `i_size` and is not found there. Where a zone is two
blocks of a directory, the new entry takes the place of another one. The empty name is found in no entry. A name
that has two entries is still there when one of them is cleared. -/
theorem directory_not_map :
    Post ((oddDirectory 8 false fun _ => 0).link 1 [97] 7)
      (fun r => r.1 = some (5, 0) ∧ r.2.lookup 1 [97] = none) (fun _ => False) ∧
    ((oddDirectory 1024 true fullBlock).lookup 1 [46] = some 1 ∧
      Post ((oddDirectory 1024 true fullBlock).link 1 [35] 7)
        (fun r => r.1 = some (5, 0) ∧ r.2.lookup 1 [46] = none) (fun _ => False)) ∧
    ((oddDirectory 32 false (twice 0)).Named 1 [] 0 ∧
      Post ((oddDirectory 32 false (twice 0)).findEntry 1 []) (fun r => r.1 = none) (fun _ => False)) ∧
    Post ((oddDirectory 32 false (twice 97)).unlink 1 [97])
      (fun r => r.1 = some (5, 0) ∧ r.2.lookup 1 [97] = some 2) (fun _ => False) := by
  refine ⟨?_, ⟨?_, ?_⟩, ⟨?_, ?_⟩, ?_⟩
  · decide +kernel
  · decide +kernel
  · decide +kernel
  · decide +kernel
  · decide +kernel
  · decide +kernel

end Linux011.Fs
