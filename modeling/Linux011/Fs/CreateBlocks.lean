import Linux011.Fs.Truncate
import Linux011.Lib.RefCount

/-!
# create_block in several processes

`_bmap` looks for a zone number in one place after the other: in the inode, and in the entries of index blocks. If it
finds none, it calls `new_block`, which sets the bit of a free zone and sleeps in `getblk`, and stores the number that
it gets. It also sleeps in `bread`, before it has looked at an entry. The inode is not locked in the meantime, and
nobody looks at the place again before the number is stored.

A call is a sequence of phases here, each one from a point where the process may sleep to the next one. A call that
nobody comes between is `createBlock` (`createBlock_alone`).
-/

namespace Linux011.Fs

open Linux011.Lib Dev

/-- Where a zone number is looked for: in `i_zone`, or in the buffer of an index block. -/
inductive Place where
  | zone (k : Nat)
  | entry (b k : Nat)
deriving DecidableEq

/-- How far a call has come: it sleeps in `new_block`, with a zone for a place that was empty, or in the `bread` of
an index block. `rest` are the entries behind that it has not come to. -/
inductive Stage where
  | idle
  | making (p : Place) (z : Nat) (rest : List Nat)
  | reading (b k : Nat) (rest : List Nat)
  | returned (z : Nat)
deriving DecidableEq

/-- The way to a block: the number in the inode, and the entries of index blocks. -/
def route (block : Nat) : Nat × List Nat :=
  if block < 7 then (block, [])
  else if block < 7 + 512 then (7, [block - 7])
  else (8, [(block - (7 + 512)) / 512, (block - (7 + 512)) % 512])

namespace Dev

/-- `new_block` up to `getblk`: the bit of a zone is set, if there is a zone left. -/
def takeZone (s : Dev) : Except Panic (Option Nat × Dev) :=
  match scanMap s.zmap s.super.sZmapBlocks 8 0 with
  | none => .ok (none, s)
  | some (i, j) =>
    if s.zmap (8192 * i + j) then .error "new_block: bit already set"
    else
      let s := { s with zmap := Function.update s.zmap (8192 * i + j) true }
      let j := j + i * 8192 + s.super.sFirstdatazone - 1
      if s.super.sNzones ≤ j then .ok (none, s) else .ok (some j, s)

def lookAt (n : Nat) (p : Place) (s : Dev) : Nat :=
  match p with
  | .zone k => (s.inode n).iZone k
  | .entry b k => s.entry b k

def putAt (n : Nat) (p : Place) (z : Nat) (s : Dev) : Dev :=
  match p with
  | .zone k => s.setZone n k z
  | .entry b k => s.modify b (setWord k z)

/-- `brelse(bh)`, if the place is in a buffer. -/
def leavePlace (p : Place) (s : Dev) : Except Panic Dev :=
  match p with
  | .zone _ => .ok s
  | .entry b _ => s.brelse b

end Dev

namespace Stage

/-- The number in a place is known. -/
def arrive (z : Nat) (rest : List Nat) : Stage :=
  match rest with
  | [] => returned z
  | k :: ks => if z = 0 then returned 0 else reading z k ks

/-- A place is looked at; if it is empty, `new_block` is called. -/
def visit (n : Nat) (p : Place) (rest : List Nat) (s : Dev) : Except Panic (Stage × Dev) :=
  if s.lookAt n p ≠ 0 then do
    let z := s.lookAt n p
    let s ← s.leavePlace p
    return (arrive z rest, s)
  else do
    let (taken, s) ← s.takeZone
    match taken with
    | none => do
      let s ← s.leavePlace p
      return (arrive 0 rest, s)
    | some z => return (making p z rest, s)

/-- A call of `create_block` goes on until it may sleep, or returns. -/
def step (n block : Nat) (f : Stage) (s : Dev) : Except Panic (Stage × Dev) :=
  match f with
  | idle =>
    if maxBlocks ≤ block then .error "_bmap: block>big" else visit n (.zone (route block).1) (route block).2 s
  | making p z rest => do
    let (z, s) ← s.newZone z
    let s ← (if z = 0 then s else s.putAt n p z).leavePlace p
    return (arrive z rest, s)
  | reading b k rest => do
    let (got, s) ← s.bread b
    if got then visit n (.entry b k) rest s else return (returned 0, s)
  | returned z => .ok (returned z, s)

end Stage

/-- The device, and the calls for one inode. -/
structure Calls (T : Type _) where
  dev : Dev
  phase : T → Stage

namespace Calls

variable {T : Type _} [DecidableEq T]

/-- A process comes to the next point where it may sleep. -/
def goOn (n : Nat) (blocks : T → Nat) (c : Calls T) (t : T) : Except Panic (Calls T) := do
  let (f, dev) ← (c.phase t).step n (blocks t) c.dev
  return ⟨dev, Function.update c.phase t f⟩

/-- A call goes on, or something happens to the buffers. -/
inductive Step (n : Nat) (blocks : T → Nat) (c : Calls T) : Option T → Calls T → Prop
  | call {t : T} {c' : Calls T} (hrun : c.goOn n blocks t = .ok c') : Step n blocks c (some t) c'
  | cache {cache : Cache} (hc : Cache.Background c.dev.cache cache) :
      Step n blocks c none { c with dev := { c.dev with cache := cache } }

end Calls

/-! ## A call on its own -/

variable {s s' : Dev} {n b k z : Nat} {p p' : Place} {rest : List Nat} {block : Nat}

theorem newBlock_eq (s : Dev) : s.newBlock = s.takeZone >>= fun r =>
    match r.1 with
    | none => .ok (0, r.2)
    | some z => r.2.newZone z := by
  unfold newBlock takeZone
  cases scanMap s.zmap s.super.sZmapBlocks 8 0 with
  | none => rfl
  | some ij =>
    dsimp only
    split
    · rfl
    · split
      · rfl
      · rfl

theorem newBlock_takeZone {r : Nat × Dev} (h : s.newBlock = .ok r) :
    (∃ s₁, s.takeZone = .ok (none, s₁) ∧ r = (0, s₁)) ∨
      ∃ z s₁, s.takeZone = .ok (some z, s₁) ∧ s₁.newZone z = .ok r := by
  rw [newBlock_eq] at h
  obtain ⟨⟨taken, s₁⟩, htake, hrest⟩ := ok_of_bind h
  cases taken with
  | none => exact Or.inl ⟨s₁, htake, (Except.ok.inj hrest).symm⟩
  | some z => exact Or.inr ⟨z, s₁, htake, hrest⟩

namespace Stage

theorem arrive_eq (z k : Nat) (ks : List Nat) :
    arrive z (k :: ks) = if z = 0 then returned 0 else reading z k ks :=
  rfl

@[simp] theorem arrive_zero (rest : List Nat) : arrive 0 rest = returned 0 := by
  cases rest with
  | nil => rfl
  | cons k ks => rw [arrive_eq, if_pos rfl]

theorem arrive_cons {ks : List Nat} (hz : z ≠ 0) : arrive z (k :: ks) = reading z k ks := by
  rw [arrive_eq, if_neg hz]

/-- One call takes a step. -/
def Alone (n block : Nat) (c c' : Stage × Dev) : Prop := c.1.step n block c.2 = .ok c'

theorem visit_full (hlook : s.lookAt n p ≠ 0) (hleave : s.leavePlace p = .ok s') :
    visit n p rest s = .ok (arrive (s.lookAt n p) rest, s') := by
  unfold visit
  rw [if_pos hlook, hleave]
  rfl

theorem visit_none {s₁ : Dev} (hlook : s.lookAt n p = 0) (htake : s.takeZone = .ok (none, s₁))
    (hleave : s₁.leavePlace p = .ok s') : visit n p rest s = .ok (returned 0, s') := by
  unfold visit
  rw [if_neg (not_not.mpr hlook), htake]
  show (s₁.leavePlace p >>= fun s => pure (arrive 0 rest, s)) = _
  rw [hleave, arrive_zero]
  rfl

theorem visit_some (hlook : s.lookAt n p = 0) (htake : s.takeZone = .ok (some z, s')) :
    visit n p rest s = .ok (making p z rest, s') := by
  unfold visit
  rw [if_neg (not_not.mpr hlook), htake]
  rfl

theorem step_making {y : Nat} {s₁ : Dev} (hnew : s.newZone y = .ok (z, s₁))
    (hleave : (if z = 0 then s₁ else s₁.putAt n p z).leavePlace p = .ok s') :
    step n block (making p y rest) s = .ok (arrive z rest, s') := by
  unfold step
  dsimp only
  rw [hnew]
  show ((if z = 0 then s₁ else s₁.putAt n p z).leavePlace p >>= fun s => pure (arrive z rest, s)) = _
  rw [hleave]
  rfl

theorem visit_inodeZone (block : Nat) (rest : List Nat) (h : s.inodeZone true n k = .ok (z, s')) :
    ∃ c, visit n (.zone k) rest s = .ok c ∧ Relation.ReflTransGen (Alone n block) c (arrive z rest, s') := by
  unfold inodeZone at h
  split at h
  · next hempty =>
    obtain ⟨⟨y, s₁⟩, hnew, hrest⟩ := ok_of_bind h
    rcases newBlock_takeZone hnew with ⟨s₂, htake, heq⟩ | ⟨y', s₂, htake, hzone⟩
    · cases heq
      cases hrest
      exact ⟨_, visit_none hempty.2 htake rfl, by rw [arrive_zero]⟩
    · refine ⟨_, visit_some hempty.2 htake, Relation.ReflTransGen.single ?_⟩
      dsimp only at hrest
      split at hrest
      · next hy =>
        cases hrest
        refine step_making (z := 0) (by rw [hy] at hzone; exact hzone) ?_
        rw [if_pos rfl]
        rfl
      · next hy =>
        cases hrest
        refine step_making hzone ?_
        rw [if_neg hy]
        rfl
  · next hkept =>
    cases h
    exact ⟨_, visit_full (p := .zone k) (fun hzero => hkept ⟨rfl, hzero⟩) rfl, .refl⟩

theorem step_entryZone (h : s.entryZone true b k = .ok (z, s')) :
    Relation.ReflTransGen (Alone n block) (reading b k rest, s) (arrive z rest, s') := by
  unfold entryZone at h
  obtain ⟨⟨got, s₁⟩, hread, hrest⟩ := ok_of_bind h
  dsimp only at hrest
  have hstep : step n block (reading b k rest) s =
      if got then visit n (.entry b k) rest s₁ else .ok (returned 0, s₁) := by
    unfold step
    dsimp only
    rw [hread]
    rfl
  split at hrest
  · next hgot =>
    rw [if_pos hgot] at hstep
    split at hrest
    · next hempty =>
      obtain ⟨⟨y, s₂⟩, hnew, hrest⟩ := ok_of_bind hrest
      obtain ⟨s₃, hleave, hrest⟩ := ok_of_bind hrest
      cases hrest
      rcases newBlock_takeZone hnew with ⟨s₄, htake, heq⟩ | ⟨y', s₄, htake, hzone⟩
      · cases heq
        rw [arrive_zero]
        refine Relation.ReflTransGen.single (hstep.trans (visit_none hempty.2 htake ?_))
        rw [if_pos rfl] at hleave
        exact hleave
      · refine .head (hstep.trans (visit_some hempty.2 htake)) (Relation.ReflTransGen.single ?_)
        exact step_making hzone hleave
    · next hkept =>
      obtain ⟨s₃, hleave, hrest⟩ := ok_of_bind hrest
      cases hrest
      exact Relation.ReflTransGen.single
        (hstep.trans (visit_full (p := .entry b k) (fun hzero => hkept ⟨rfl, hzero⟩) hleave))
  · next hgot =>
    rw [if_neg hgot] at hstep
    cases hrest
    rw [arrive_zero]
    exact Relation.ReflTransGen.single hstep

/-- A call that nobody comes between does what `createBlock` does. -/
theorem createBlock_alone (h : s.createBlock n block = .ok (z, s')) :
    Relation.ReflTransGen (Alone n block) (idle, s) (returned z, s') := by
  unfold createBlock bmapCreate at h
  split at h
  · cases h
  · next hblock =>
    have hstart : ∀ {c c'}, visit n (.zone (route block).1) (route block).2 s = .ok c →
        Relation.ReflTransGen (Alone n block) c c' → Relation.ReflTransGen (Alone n block) (idle, s) c' := by
      intro c c' hvisit hrun
      refine .head ?_ hrun
      show step n block idle s = .ok c
      unfold step
      dsimp only
      rw [if_neg hblock, hvisit]
    unfold route at hstart
    split at h
    · next hdirect =>
      rw [if_pos hdirect] at hstart
      obtain ⟨c, hvisit, hrun⟩ := visit_inodeZone block [] h
      exact hstart hvisit hrun
    · next hdirect =>
      rw [if_neg hdirect] at hstart
      split at h
      · next hind =>
        rw [if_pos hind] at hstart
        obtain ⟨⟨b, s₁⟩, htop, h⟩ := ok_of_bind h
        obtain ⟨c, hvisit, hrun⟩ := visit_inodeZone block [block - 7] htop
        refine (hstart hvisit hrun).trans ?_
        dsimp only at h
        split at h
        · next hb =>
          cases h
          rw [hb, arrive_zero]
        · next hb =>
          rw [arrive_cons hb]
          exact step_entryZone h
      · next hind =>
        rw [if_neg hind] at hstart
        obtain ⟨⟨b, s₁⟩, htop, h⟩ := ok_of_bind h
        obtain ⟨c, hvisit, hrun⟩ := visit_inodeZone block
          [(block - (7 + 512)) / 512, (block - (7 + 512)) % 512] htop
        refine (hstart hvisit hrun).trans ?_
        dsimp only at h
        split at h
        · next hb =>
          cases h
          rw [hb, arrive_zero]
        · next hb =>
          obtain ⟨⟨b', s₂⟩, hnext, h⟩ := ok_of_bind h
          rw [arrive_cons hb]
          refine (step_entryZone hnext).trans ?_
          dsimp only at h
          split at h
          · next hb' =>
            cases h
            rw [hb', arrive_zero]
          · next hb' =>
            rw [arrive_cons hb']
            exact step_entryZone h

end Stage

/-! ## Taking a zone -/

variable {tight : Prop} {zoned : Nat → Prop}

/-- Used zones need not have an owner. -/
theorem ZoneInv.loosen (h : ZoneInv tight zoned noDead s) : ZoneInv False zoned noDead s :=
  ⟨h.sound, h.zero_bit, h.owns.leak fun _ _ => id, h.closed, h.unheld, h.coherent⟩

/-- The bit of zone `z` has been set; nobody has the zone yet. -/
structure Dev.Taken (s : Dev) (z : Nat) (s' : Dev) : Prop where
  range : s.super.sFirstdatazone ≤ z ∧ z < s.super.sNzones
  free : s.zmap (z - (s.super.sFirstdatazone - 1)) = false
  mark : s' = { s with zmap := Function.update s.zmap (z - (s.super.sFirstdatazone - 1)) true }

theorem Dev.takeZone_spec (hs : s.super.Sound) (hzero : s.zmap 0 = true) :
    Post s.takeZone (fun r => (r.1 = none ∧ Full s r.2) ∨ ∃ z, r.1 = some z ∧ Taken s z r.2) (fun _ => False) := by
  have hfirst := hs.first_pos
  unfold takeZone
  split
  · exact Post.ret (Or.inl ⟨rfl, ⟨0, Or.inl rfl⟩, rfl, rfl, rfl, rfl⟩)
  · next i j hscan =>
    obtain ⟨hi, hj, hbit⟩ := scanMap_some hscan
    -- bit 0 is set, so the bit found stands for a zone
    have hpos : 8192 * i + j ≠ 0 := by
      intro h0
      rw [h0, hzero] at hbit
      cases hbit
    rw [if_neg (by simp [hbit])]
    dsimp only
    split
    · next hout =>
      refine Post.ret (Or.inl ⟨rfl, ⟨8192 * i + j, Or.inr ⟨?_, rfl⟩⟩, rfl, rfl, rfl, rfl⟩)
      omega
    · next hin =>
      have hz : j + i * 8192 + s.super.sFirstdatazone - 1 - (s.super.sFirstdatazone - 1) = 8192 * i + j := by omega
      refine Post.ret (Or.inr ⟨_, rfl, ⟨by omega, by omega⟩, ?_, ?_⟩)
      · rw [hz, hbit]
      · rw [hz]

namespace Dev.Taken

theorem not_used (h : Taken s z s') : ¬ s.Used z := by
  intro hused
  have hfree := h.free
  rw [hused.2.2] at hfree
  cases hfree

theorem used (h : Taken s z s') (y : Nat) : s'.Used y ↔ s.Used y ∨ y = z := by
  have h1 := h.range
  rw [h.mark]
  unfold Dev.Used
  dsimp only
  by_cases hy : y = z
  · simp [hy, h1]
  · rw [or_iff_left hy]
    refine and_congr_right fun h2 => and_congr_right fun _ => ?_
    by_cases hbit : y - (s.super.sFirstdatazone - 1) = z - (s.super.sFirstdatazone - 1)
    · omega
    · rw [Function.update_of_ne hbit]

theorem slotZone (h : Taken s z s') (m : Nat) (sl : Slot) : s'.slotZone m sl = s.slotZone m sl := by
  rw [h.mark]
  exact slotZone_congr rfl fun _ _ _ => rfl

/-- The zones are in order, though one of them has no owner. -/
theorem zones (h : Taken s z s') (hz : ZoneInv False zoned noDead s) : ZoneInv False zoned noDead s' := by
  have hrefers : ∀ r y, Refers zoned noDead s' r y ↔ Refers zoned noDead s r y := by
    intro r y
    unfold Refers
    rw [h.slotZone]
  refine ⟨?_, ?_, ⟨?_, fun r y hr => ?_, False.elim⟩, hz.closed, fun y h1 h2 h3 => ?_, ?_⟩
  · rw [h.mark]
    exact hz.sound
  · have hset := hz.zero_bit
    rw [h.mark]
    show Function.update s.zmap _ true 0 = true
    by_cases hbit : 0 = z - (s.super.sFirstdatazone - 1)
    · rw [← hbit, Function.update_self]
    · rw [Function.update_of_ne hbit, hset]
  · exact fun r r' y hr hr' => hz.owns.inj r r' y ((hrefers r y).mp hr) ((hrefers r' y).mp hr')
  · exact (h.used y).mpr (Or.inl (hz.owns.used_of_ref r y ((hrefers r y).mp hr)))
  · have hfree : ¬ s.Used y := fun hu => h3 ((h.used y).mpr (Or.inl hu))
    rw [h.mark] at h1 h2 ⊢
    exact hz.unheld y h1 h2 hfree
  · rw [h.mark]
    exact hz.coherent

end Dev.Taken

/-- A zone that is marked as used, and that no slot holds: a call is about to store its number. -/
structure Pending (zoned : Nat → Prop) (s : Dev) (z : Nat) : Prop where
  used : s.Used z
  unheld : s.held z = 0
  unowned : ∀ m sl, zoned m → sl.Valid → s.slotZone m sl ≠ z

/-- As if the zone were still free. -/
def Dev.unmark (z : Nat) (s : Dev) : Dev :=
  { s with zmap := Function.update s.zmap (z - (s.super.sFirstdatazone - 1)) false }

namespace Pending

theorem used_unmark (h : Pending zoned s z) (hs : s.super.Sound) (y : Nat) :
    (s.unmark z).Used y ↔ s.Used y ∧ y ≠ z := by
  have h1 := h.used.1
  have h2 := hs.first_pos
  unfold Dev.Used unmark
  dsimp only
  by_cases hy : y = z
  · simp [hy]
  · rw [and_iff_left hy]
    refine and_congr_right fun h3 => and_congr_right fun _ => ?_
    rw [Function.update_of_ne (by omega)]

theorem slotZone_unmark (m : Nat) (sl : Slot) : (s.unmark z).slotZone m sl = s.slotZone m sl :=
  slotZone_congr rfl fun _ _ _ => rfl

theorem zones (h : Pending zoned s z) (hz : ZoneInv False zoned noDead s) :
    ZoneInv False zoned noDead (s.unmark z) := by
  have hrefers : ∀ r y, Refers zoned noDead (s.unmark z) r y ↔ Refers zoned noDead s r y := by
    intro r y
    unfold Refers
    rw [slotZone_unmark]
  refine ⟨hz.sound, ?_, ⟨fun r r' y hr hr' => ?_, fun r y hr => ?_, False.elim⟩, hz.closed, fun y h1 h2 h3 => ?_,
    hz.coherent⟩
  · have h1 := h.used.1
    have h2 := hz.sound.first_pos
    show Function.update s.zmap _ false 0 = true
    rw [Function.update_of_ne (by omega), hz.zero_bit]
  · exact hz.owns.inj r r' y ((hrefers r y).mp hr) ((hrefers r' y).mp hr')
  · have hr := (hrefers r y).mp hr
    refine (h.used_unmark hz.sound y).mpr ⟨hz.owns.used_of_ref r y hr, ?_⟩
    rintro rfl
    exact h.unowned r.1 r.2 hr.1 hr.2.1 hr.2.2.2.1
  · by_cases hy : y = z
    · rw [hy]
      exact h.unheld
    · exact hz.unheld y h1 h2 fun hu => h3 ((h.used_unmark hz.sound y).mpr ⟨hu, hy⟩)

/-- The zone gets its cleared buffer: from here on it might as well have been taken now. -/
theorem newZone (h : Pending zoned s z) :
    Post (s.newZone z) (fun r => r.1 = z ∧ Fresh (s.unmark z) z r.2) (fun _ => False) := by
  refine (newZone_spec h.unheld).imp ?_
  rintro r ⟨hr, cache, hwrote, hup, hs⟩
  refine ⟨hr, ⟨h.used.1, h.used.2.1⟩, Function.update_self .., ?_, ?_, ?_, ?_, ?_, ?_⟩
  · rw [hs]
    show s.zmap = Function.update (Function.update s.zmap (z - (s.super.sFirstdatazone - 1)) false)
      (z - (s.super.sFirstdatazone - 1)) true
    have hbit := h.used.2.2
    rw [Function.update_idem, ← hbit]
    exact (Function.update_eq_self _ _).symm
  · rw [hs]
    exact hwrote
  · rw [hs]
    exact hup
  · rw [hs]
    rfl
  · rw [hs]
    rfl
  · rw [hs]
    rfl

end Pending

/-! ## Where a call is -/

/-- The index block in whose buffer the place is. -/
def Place.buffer : Place → Option Nat
  | zone _ => none
  | entry b _ => some b

/-- The place is that of slot `sl` of inode `n`. -/
def Place.At (s : Dev) (n : Nat) : Place → Slot → Prop
  | zone k, sl => sl = .zone k
  | entry b k, sl => (s.cache.head b).uptodate = true ∧
      ∃ q : Slot, q.Valid ∧ q.Index ∧ s.slotZone n q = b ∧ b ≠ 0 ∧ sl = q.child k

/-- The entries lead from the slot to the slot of the block. -/
def Way (block : Nat) (sl : Slot) : List Nat → Prop
  | [] => sl = Slot.ofBlock block
  | k :: ks => sl.Index ∧ (sl.child k).Valid ∧ Way block (sl.child k) ks

theorem route_way (hblock : block < maxBlocks) :
    Slot.Valid (.zone (route block).1) ∧ Way block (.zone (route block).1) (route block).2 := by
  have hmax : block < 7 + 512 + 512 * 512 := hblock
  unfold route
  split
  · next hdirect =>
    refine ⟨by show block < 9; omega, ?_⟩
    show Slot.zone block = Slot.ofBlock block
    unfold Slot.ofBlock
    rw [if_pos hdirect]
  · next hdirect =>
    split
    · next hind =>
      refine ⟨by show 7 < 9; decide, Nat.le_refl 7, by show block - 7 < 512; omega, ?_⟩
      show Slot.ind (block - 7) = Slot.ofBlock block
      unfold Slot.ofBlock
      rw [if_neg hdirect, if_pos hind]
    · next hind =>
      have hk : (block - (7 + 512)) / 512 < 512 := by omega
      have hl : (block - (7 + 512)) % 512 < 512 := by omega
      refine ⟨by show 8 < 9; decide, by show 7 ≤ 8; decide, hk, trivial, ⟨hk, hl⟩, ?_⟩
      show Slot.leaf _ _ = Slot.ofBlock block
      unfold Slot.ofBlock
      rw [if_neg hdirect, if_neg hind]

namespace Place.At

variable {sl : Slot}

/-- A slot has one place. -/
theorem inj (h : p.At s n sl) (h' : p'.At s n sl) : p = p' := by
  cases p with
  | zone k =>
    cases p' with
    | zone k' =>
      rw [Slot.zone.inj (h.symm.trans h')]
    | entry b' k' =>
      obtain ⟨-, q, -, hq, -, -, hsl⟩ := h'
      exact absurd (hsl.symm.trans h) (Slot.child_ne_zone hq)
  | entry b k =>
    obtain ⟨-, q, hvalid, hq, hb, -, hsl⟩ := h
    cases p' with
    | zone k' => exact absurd (hsl.symm.trans h') (Slot.child_ne_zone hq)
    | entry b' k' =>
      obtain ⟨-, q', hvalid', hq', hb', -, hsl'⟩ := h'
      obtain ⟨rfl, rfl⟩ := Slot.child_inj_parent hq hvalid hq' hvalid' (hsl.symm.trans hsl')
      rw [← hb, ← hb']

theorem lookAt (h : p.At s n sl) : s.lookAt n p = s.slotZone n sl := by
  cases p with
  | zone k =>
    cases h
    rfl
  | entry b k =>
    obtain ⟨hup, q, hvalid, hq, rfl, hb, rfl⟩ := h
    show s.entry _ k = _
    rw [entry_eq k hup, slotZone_child hq hvalid, entryOf, if_neg hb]

/-- The block of a place holds a slot. -/
theorem buffer_slot (h : p.At s n sl) (hb : p.buffer = some b) :
    (s.cache.head b).uptodate = true ∧ ∃ q : Slot, q.Valid ∧ s.slotZone n q = b ∧ b ≠ 0 := by
  cases p with
  | zone k => cases hb
  | entry b' k =>
    cases hb
    obtain ⟨hup, q, hvalid, -, heq, hne, -⟩ := h
    exact ⟨hup, q, hvalid, heq, hne⟩

end Place.At

/-- 1 for the block of the buffer that is held, if any. -/
def one (o : Option Nat) (b : Nat) : Nat := if o = some b then 1 else 0

theorem Dev.leavePlace_spec (hheld : ∀ b, p.buffer = some b → s.held b ≠ 0) :
    Post (s.leavePlace p) (fun s' => Same s s' ∧ ∀ b, s'.held b + one p.buffer b = s.held b) (fun _ => False) := by
  cases p with
  | zone k => exact Post.ret ⟨Same.refl s, fun b => rfl⟩
  | entry b k =>
    obtain ⟨m, hm⟩ := Nat.exists_eq_succ_of_ne_zero (hheld b rfl)
    refine (brelse_spec hm).imp ?_
    rintro s' ⟨hsame, hheld'⟩
    refine ⟨hsame, fun y => ?_⟩
    rw [hheld']
    unfold one Place.buffer
    by_cases hy : y = b
    · rw [hy, Function.update_self, if_pos rfl, hm]
    · rw [Function.update_of_ne hy, if_neg fun heq => hy (Option.some.inj heq).symm, Nat.add_zero]

namespace Stage

/-- What holds of a call between two steps: what it has found so far is in the zone tree. -/
def Ok (zoned : Nat → Prop) (n block : Nat) (s : Dev) : Stage → Prop
  | idle => True
  | making p z rest => Pending zoned s z ∧
      ∃ sl : Slot, sl.Valid ∧ p.At s n sl ∧ s.slotZone n sl = 0 ∧ Way block sl rest
  | reading b k rest => ∃ q : Slot, q.Valid ∧ s.slotZone n q = b ∧ b ≠ 0 ∧ Way block q (k :: rest)
  | returned z => z ≠ 0 → (Slot.ofBlock block).Valid ∧ s.slotZone n (Slot.ofBlock block) = z

/-- The buffer that a sleeping call holds while it waits for a zone. -/
def holds : Stage → Option Nat
  | making p _ _ => p.buffer
  | _ => none

/-- The place that the next step looks at. -/
def Looks (block : Nat) (s : Dev) (p : Place) : Stage → Prop
  | idle => p = .zone (route block).1
  | reading b k _ => s.Readable b ∧ p = .entry b k
  | _ => False

@[simp] theorem arrive_holds (z : Nat) (rest : List Nat) : (arrive z rest).holds = none := by
  cases rest with
  | nil => rfl
  | cons k ks =>
    rw [arrive_eq]
    split
    · rfl
    · rfl

theorem arrive_ne_making {y : Nat} {rest' : List Nat} : arrive z rest ≠ making p y rest' := by
  cases rest with
  | nil => exact fun h => by cases h
  | cons k ks =>
    rw [arrive_eq]
    split
    · exact fun h => by cases h
    · exact fun h => by cases h

theorem arrive_ok {sl : Slot} (hsl : sl.Valid) (hz : s.slotZone n sl = z) (hway : Way block sl rest) :
    (arrive z rest).Ok zoned n block s := by
  cases rest with
  | nil =>
    intro _
    rw [← show sl = Slot.ofBlock block from hway]
    exact ⟨hsl, hz⟩
  | cons k ks =>
    by_cases hne : z = 0
    · rw [hne, arrive_zero]
      exact fun h => absurd rfl h
    · rw [arrive_cons hne]
      exact ⟨sl, hsl, hz, hne, hway⟩

end Stage

/-! ## A step of a call -/

theorem Dev.Taken.spare (h : Taken s z s') : s.spare ≠ 0 := by
  refine Finset.card_ne_zero_of_mem (a := z) (Finset.mem_filter.mpr ⟨Finset.mem_range.mpr h.range.2, h.range.1, h.free⟩)

/-- Giving back buffers, or not. -/
theorem ZoneInv.less {dead : Nat × Slot → Prop} (h : ZoneInv tight zoned dead s) (hsame : Same s s')
    (hheld : ∀ y, s'.held y ≤ s.held y) : ZoneInv tight zoned dead s' := by
  refine h.same hsame fun y _ hzero => ?_
  have hle := hheld y
  omega

/-- A place has been looked at; its buffer, if it is in one, is held before. -/
structure Visited (zoned : Nat → Prop) (n block : Nat) (p : Place) (s : Dev) (f' : Stage) (s' : Dev) : Prop where
  zones : ZoneInv False zoned noDead s'
  slots : ∀ m sl, s'.slotZone m sl = s.slotZone m sl
  used : ∀ y, s'.Used y ↔ s.Used y ∨ ∃ p rest, f' = .making p y rest
  fresh : ∀ p' z rest, f' = .making p' z rest → ¬ s.Used z ∧ p' = p ∧ s.spare ≠ 0
  held : ∀ b, s'.held b + one p.buffer b = s.held b + one f'.holds b
  uptodate : ∀ b, (s.cache.head b).uptodate = true → (s'.cache.head b).uptodate = true
  ok : f'.Ok zoned n block s'

/-- The buffer is given back, and the call has the number. -/
theorem Visited.arrive {sl : Slot} {s₁ : Dev} (h : ZoneInv False zoned noDead s₁)
    (hslots : ∀ m sl, s₁.slotZone m sl = s.slotZone m sl) (hused : ∀ y, s₁.Used y ↔ s.Used y)
    (hcache : s₁.cache = s.cache) (hsl : sl.Valid) (hz : s.slotZone n sl = z) (hway : Way block sl rest)
    (hheld : ∀ b, p.buffer = some b → s.held b ≠ 0) :
    Post (s₁.leavePlace p) (fun s' => Visited zoned n block p s (Stage.arrive z rest) s') (fun _ => False) := by
  have hheld₁ : ∀ b, s₁.held b = s.held b := fun b => congrArg (fun c => Cache.held c b) hcache
  refine (leavePlace_spec fun b hb => by rw [hheld₁]; exact hheld b hb).imp ?_
  rintro s' ⟨hsame, hback⟩
  have hslots' : ∀ m sl, s'.slotZone m sl = s.slotZone m sl := fun m sl => by rw [hsame.slotZone, hslots]
  refine ⟨h.less hsame fun y => ?_, hslots', fun y => ?_, fun p' z' rest' hm => ?_, fun b => ?_, fun b hup => ?_, ?_⟩
  · have hy := hback y
    omega
  · rw [hsame.used, hused]
    exact (or_iff_left fun ⟨_, _, hm⟩ => Stage.arrive_ne_making hm).symm
  · exact absurd hm Stage.arrive_ne_making
  · rw [hback, hheld₁, Stage.arrive_holds]
    rfl
  · refine hsame.cache.uptodate b ?_
    rw [hcache]
    exact hup
  · exact Stage.arrive_ok hsl (by rw [hslots']; exact hz) hway

theorem Stage.visit_spec {sl : Slot} (h : ZoneInv False zoned noDead s) (hsl : sl.Valid)
    (hat : p.At s n sl) (hway : Way block sl rest) (hheld : ∀ b, p.buffer = some b → s.held b ≠ 0) :
    Post (visit n p rest s) (fun r => Visited zoned n block p s r.1 r.2) (fun _ => False) := by
  have hlook := hat.lookAt
  unfold visit
  split
  · exact Post.bind (Visited.arrive h (fun _ _ => rfl) (fun _ => Iff.rfl) rfl hsl hlook.symm hway hheld)
      fun s' hs' => Post.ret hs'
  · next hempty =>
    have hzero : s.slotZone n sl = 0 := by
      rw [← hlook]
      exact not_not.mp hempty
    refine Post.bind (takeZone_spec h.sound h.zero_bit) ?_
    rintro ⟨taken, s₁⟩ (⟨rfl, hfull⟩ | ⟨z, rfl, htaken⟩)
    · have hslots : ∀ m sl, s₁.slotZone m sl = s.slotZone m sl := fun m sl =>
        slotZone_congr (by rw [hfull.inode]) fun _ _ _ => congrArg (fun c => Cache.contents c _) hfull.cache
      exact Post.bind (Visited.arrive (Dev.Full.zones (n := n) h hfull).1 hslots hfull.used hfull.cache hsl hzero
        hway hheld) fun s' hs' => Post.ret hs'
    · change s.Taken z s₁ at htaken
      have hcache : s₁.cache = s.cache := by rw [htaken.mark]
      have hheld₁ : ∀ b, s₁.held b = s.held b := fun b => congrArg (fun c => Cache.held c b) hcache
      refine Post.ret ⟨htaken.zones h, htaken.slotZone, fun y => ?_, fun p' y rest' hm => ?_, fun b => ?_,
        fun b hup => ?_, ⟨⟨(htaken.used z).mpr (Or.inr rfl), ?_, fun m sl' hm hsl' heq => ?_⟩, sl, hsl, ?_, ?_, hway⟩⟩
      · rw [htaken.used]
        refine or_congr_right ⟨?_, ?_⟩
        · rintro rfl
          exact ⟨p, rest, rfl⟩
        · rintro ⟨p', rest', hm⟩
          cases hm
          rfl
      · cases hm
        exact ⟨htaken.not_used, rfl, htaken.spare⟩
      · rw [hheld₁]
        rfl
      · rw [hcache]
        exact hup
      · rw [hheld₁]
        exact h.unheld z htaken.range.1 htaken.range.2 htaken.not_used
      · -- a slot that held it would make it used
        rw [htaken.slotZone] at heq
        have hne : s.slotZone m sl' ≠ 0 := by
          have h1 := htaken.range.1
          have h2 := h.sound.first_pos
          omega
        exact htaken.not_used (heq ▸ h.used hm hsl' hne)
      · cases p with
        | zone k => exact hat
        | entry b k =>
          obtain ⟨hup, q, hvalid, hq, hb, hne, heq⟩ := hat
          exact ⟨by rw [hcache]; exact hup, q, hvalid, hq, by rw [htaken.slotZone]; exact hb, hne, heq⟩
      · rw [htaken.slotZone]
        exact hzero

/-- What one step of a call does. A number is stored in an empty slot only, and only by the call that has the zone. -/
structure Moved (zoned : Nat → Prop) (n block : Nat) (f : Stage) (s : Dev) (f' : Stage) (s' : Dev) : Prop where
  zones : ZoneInv False zoned noDead s'
  slots : ∀ m sl, zoned m → sl.Valid → s'.slotZone m sl = s.slotZone m sl ∨
    m = n ∧ s.slotZone n sl = 0 ∧ ∃ p z rest, f = .making p z rest ∧ p.At s n sl ∧ s'.slotZone n sl = z
  used : ∀ y, s'.Used y ↔ s.Used y ∨ ∃ p rest, f' = .making p y rest
  stored : ∀ p z rest, f = .making p z rest → ∃ sl : Slot, sl.Valid ∧ s'.slotZone n sl = z
  fresh : ∀ p z rest, f' = .making p z rest → ¬ s.Used z ∧ f.Looks block s p ∧ s.spare ≠ 0
  held : ∀ b, s'.held b + one f.holds b = s.held b + one f'.holds b
  uptodate : ∀ b, (s.cache.head b).uptodate = true → (s'.cache.head b).uptodate = true
  ok : f'.Ok zoned n block s'

/-- The call looks at the next entry of an index block. -/
theorem Stage.reading_moved (h : ZoneInv False zoned noDead s) (hn : zoned n)
    (hok : (reading b k rest).Ok zoned n block s) :
    Post ((reading b k rest).step n block s) (fun r => Moved zoned n block (reading b k rest) s r.1 r.2)
      (fun _ => False) := by
  obtain ⟨q, hvalid, hb, hne, hindex, hchild, hway⟩ := hok
  have hused : s.Used b := hb ▸ h.used hn hvalid (by rw [hb]; exact hne)
  unfold step
  refine Post.bind (bread_readable b s) ?_
  rintro ⟨got, s₁⟩ ⟨hsame, -, hcase⟩
  dsimp only at hsame hcase ⊢
  have h₁ : ZoneInv False zoned noDead s₁ := by
    refine h.same hsame fun y hy hold => ?_
    rcases hcase with ⟨-, -, -, hheld⟩ | ⟨-, -, hheld⟩
    · rw [hheld]
      exact held_used hused hy hold
    · rw [hheld]
      exact hold
  rcases hcase with ⟨hread, rfl, hup, hheld⟩ | ⟨-, rfl, hheld⟩
  · have hheld₁ : ∀ y, s₁.held y = s.held y + one (some b) y := by
      intro y
      rw [hheld]
      unfold one
      by_cases hy : y = b
      · rw [hy, Function.update_self, if_pos rfl]
      · rw [Function.update_of_ne hy, if_neg fun heq => hy (Option.some.inj heq).symm]
        rfl
    have hat : Place.At s₁ n (.entry b k) (q.child k) :=
      ⟨hup, q, hvalid, hindex, by rw [hsame.slotZone]; exact hb, hne, rfl⟩
    rw [if_pos rfl]
    refine (visit_spec (p := .entry b k) h₁ hchild hat hway fun y hy => ?_).imp fun r hr => ?_
    · cases hy
      rw [hheld, Function.update_self]
      exact Nat.succ_ne_zero _
    · refine ⟨hr.zones, fun m sl _ _ => Or.inl ?_, fun y => ?_, fun p z rest hm => (by cases hm), fun p z rest hm => ?_,
        fun y => ?_, fun y hy => hr.uptodate y (hsame.cache.uptodate y hy), hr.ok⟩
      · rw [hr.slots, hsame.slotZone]
      · rw [hr.used, hsame.used]
      · obtain ⟨hfree, hp, hspare⟩ := hr.fresh p z rest hm
        rw [hsame.used] at hfree
        rw [hsame.spare] at hspare
        exact ⟨hfree, ⟨hread, hp⟩, hspare⟩
      · have hy := hr.held y
        have hy₁ := hheld₁ y
        show r.2.held y + 0 = _
        change _ + one (some b) y = _ at hy
        omega
  · rw [if_neg Bool.false_ne_true]
    refine Post.ret ⟨h₁, fun m sl _ _ => Or.inl (hsame.slotZone m sl), fun y => ?_, fun p z rest hm => (by cases hm),
      fun p z rest hm => (by cases hm), fun y => ?_, hsame.cache.uptodate, fun hzero => absurd rfl hzero⟩
    · rw [hsame.used]
      exact (or_iff_left fun ⟨_, _, hm⟩ => (by cases hm)).symm
    · rw [hheld]
      rfl

/-- The number of a zone that the call has is put where it belongs. -/
theorem putAt_attach {sl : Slot} {s₁ : Dev} (h : ZoneInv False zoned noDead s) (hn : zoned n)
    (hat : p.At s n sl) (hempty : s.slotZone n sl = 0) (hfresh : Fresh s z s₁) :
    Attach zoned n sl z s (s₁.putAt n p z) ∧
      ∀ b, (s.cache.head b).uptodate = true → ((s₁.putAt n p z).cache.head b).uptodate = true := by
  cases p with
  | zone k =>
    cases hat
    exact ⟨attach_zone h hn hempty hfresh, hfresh.wrote.uptodate⟩
  | entry b k =>
    obtain ⟨hup, q, hvalid, hq, rfl, hb, rfl⟩ := hat
    have hwrote := Cache.modify_spec (setWord k z) (hfresh.wrote.uptodate _ hup)
    have he : Entered s₁ (s.slotZone n q) k z (s₁.modify (s.slotZone n q) (setWord k z)) :=
      ⟨hwrote.contents, rfl, fun y hy => hy.imp_left (hwrote.uptodate y), hwrote.coherent, rfl, rfl, rfl, rfl⟩
    rw [slotZone_child hq hvalid] at hempty
    have hheld : (s₁.modify (s.slotZone n q) (setWord k z)).held = s.held := hwrote.held.trans hfresh.wrote.held
    exact ⟨attach_entry h hn hq hvalid hb hempty hfresh he hheld,
      fun y hy => hwrote.uptodate y (hfresh.wrote.uptodate y hy)⟩

/-- The call has got its zone. -/
theorem Stage.making_moved (h : ZoneInv False zoned noDead s) (hn : zoned n)
    (hok : (making p z rest).Ok zoned n block s) (hheld : ∀ b, p.buffer = some b → s.held b ≠ 0) :
    Post ((making p z rest).step n block s) (fun r => Moved zoned n block (making p z rest) s r.1 r.2)
      (fun _ => False) := by
  obtain ⟨hpending, sl, hsl, hat, hempty, hway⟩ := hok
  have hz : z ≠ 0 := by
    have h1 := hpending.used.1
    have h2 := h.sound.first_pos
    omega
  have h₀ := hpending.zones h
  have hat₀ : p.At (s.unmark z) n sl := by
    cases p with
    | zone k => exact hat
    | entry b k =>
      obtain ⟨hup, q, hvalid, hq, hb, hne, heq⟩ := hat
      exact ⟨hup, q, hvalid, hq, by rw [Pending.slotZone_unmark]; exact hb, hne, heq⟩
  have hempty₀ : (s.unmark z).slotZone n sl = 0 := by
    rw [Pending.slotZone_unmark]
    exact hempty
  unfold step
  refine Post.bind hpending.newZone ?_
  rintro ⟨z', s₁⟩ ⟨rfl, hfresh⟩
  dsimp only at hfresh ⊢
  rw [if_neg hz]
  obtain ⟨ha, hup⟩ := putAt_attach h₀ hn hat₀ hempty₀ hfresh
  have h₁ := ha.inv h₀ hn hsl hz hfresh.not_used hempty₀
  have hslot : ∀ m sl', zoned m → sl'.Valid →
      (s₁.putAt n p z').slotZone m sl' = if m = n ∧ sl' = sl then z' else s.slotZone m sl' := by
    intro m sl' hm hsl'
    rw [ha.slot m sl' hm hsl', Pending.slotZone_unmark]
  have hself : (s₁.putAt n p z').slotZone n sl = z' := by
    rw [hslot n sl hn hsl, if_pos ⟨rfl, rfl⟩]
  have hheld₁ : ∀ b, (s₁.putAt n p z').held b = s.held b := fun b => congrFun ha.held b
  refine Post.bind (leavePlace_spec fun b hb => by rw [hheld₁]; exact hheld b hb) ?_
  rintro s₂ ⟨hsame, hback⟩
  refine Post.ret ⟨h₁.less hsame fun y => ?_, fun m sl' hm hsl' => ?_, fun y => ?_, fun p' y rest' hm => ?_,
    fun p' y rest' hm => absurd hm arrive_ne_making, fun b => ?_, fun b hb => hsame.cache.uptodate b (hup b hb), ?_⟩
  · have hy := hback y
    show s₂.held y ≤ _
    omega
  · rw [hsame.slotZone, hslot m sl' hm hsl']
    by_cases heq : m = n ∧ sl' = sl
    · obtain ⟨rfl, rfl⟩ := heq
      refine Or.inr ⟨rfl, hempty, p, z', rest, rfl, hat, ?_⟩
      rw [hsame.slotZone, hself]
    · exact Or.inl (if_neg heq)
  · rw [hsame.used, ha.used, hpending.used_unmark h.sound]
    have hnone : ¬ ∃ p rest', Stage.arrive z' rest = .making p y rest' := fun ⟨_, _, hm⟩ => arrive_ne_making hm
    rw [or_iff_left hnone]
    constructor
    · rintro (hy | rfl)
      · exact hy.1
      · exact hpending.used
    · intro hy
      by_cases heq : y = z'
      · exact Or.inr heq
      · exact Or.inl ⟨hy, heq⟩
  · cases hm
    exact ⟨sl, hsl, by rw [hsame.slotZone, hself]⟩
  · rw [arrive_holds]
    exact (hback b).trans (hheld₁ b)
  · exact arrive_ok hsl (by rw [hsame.slotZone, hself]) hway

/-- One step of a call. It stops only for a block that no file has. -/
theorem Stage.step_moved {f : Stage} (h : ZoneInv False zoned noDead s) (hn : zoned n)
    (hok : f.Ok zoned n block s) (hheld : ∀ b, f.holds = some b → s.held b ≠ 0) :
    Post (f.step n block s) (fun r => Moved zoned n block f s r.1 r.2) (· = "_bmap: block>big") := by
  cases f with
  | idle =>
    unfold step
    dsimp only
    split
    · exact Post.stop rfl
    · next hblock =>
      obtain ⟨hvalid, hway⟩ := route_way (Nat.lt_of_not_le hblock)
      refine (visit_spec (p := .zone (route block).1) h hvalid rfl hway fun b hb => (by cases hb)).mono
        (fun r hr => ?_) fun _ he => he.elim
      refine ⟨hr.zones, fun m sl _ _ => Or.inl (hr.slots m sl), hr.used, fun p z rest hm => (by cases hm),
        fun p z rest hm => ?_, hr.held, hr.uptodate, hr.ok⟩
      obtain ⟨hfree, hp, hspare⟩ := hr.fresh p z rest hm
      exact ⟨hfree, hp, hspare⟩
  | making p z rest => exact (making_moved h hn hok hheld).mono (fun _ hr => hr) fun _ he => he.elim
  | reading b k rest => exact (reading_moved h hn hok).mono (fun _ hr => hr) fun _ he => he.elim
  | returned z =>
    refine Post.ret ⟨h, fun _ _ _ _ => Or.inl rfl, fun y => ?_, fun p z rest hm => (by cases hm),
      fun p z rest hm => (by cases hm), fun _ => rfl, fun _ hup => hup, hok⟩
    exact (or_iff_left fun ⟨_, _, hm⟩ => (by cases hm)).symm

/-- What a call has found stays so when others store numbers in other slots. -/
theorem Stage.Ok.mono {f : Stage} (hok : f.Ok zoned n block s) (hn : zoned n)
    (hslots : ∀ m sl, zoned m → sl.Valid → s'.slotZone m sl = s.slotZone m sl ∨
      m = n ∧ s.slotZone n sl = 0 ∧
        ∀ p z rest, f = .making p z rest → ¬ p.At s n sl ∧ s'.slotZone n sl ≠ z)
    (hused : ∀ y, s.Used y → s'.Used y) (hheld : ∀ p z rest, f = .making p z rest → s'.held z = 0)
    (hup : ∀ b, f.holds = some b → (s.cache.head b).uptodate = true → (s'.cache.head b).uptodate = true) :
    f.Ok zoned n block s' := by
  have hkept : ∀ sl : Slot, sl.Valid → s.slotZone n sl ≠ 0 → s'.slotZone n sl = s.slotZone n sl := by
    intro sl hsl hne
    rcases hslots n sl hn hsl with heq | ⟨-, hzero, -⟩
    · exact heq
    · exact absurd hzero hne
  cases f with
  | idle => trivial
  | making p z rest =>
    obtain ⟨⟨hz, -, hfree⟩, sl, hsl, hat, hempty, hway⟩ := hok
    refine ⟨⟨hused z hz, hheld p z rest rfl, fun m sl' hm hsl' => ?_⟩, sl, hsl, ?_, ?_, hway⟩
    · rcases hslots m sl' hm hsl' with heq | ⟨rfl, -, hother⟩
      · rw [heq]
        exact hfree m sl' hm hsl'
      · exact (hother p z rest rfl).2
    · cases p with
      | zone k => exact hat
      | entry b k =>
        obtain ⟨hb, q, hvalid, hq, heq, hne, hsl'⟩ := hat
        refine ⟨hup b rfl hb, q, hvalid, hq, ?_, hne, hsl'⟩
        rw [hkept q hvalid (by rw [heq]; exact hne), heq]
    · rcases hslots n sl hn hsl with heq | ⟨-, -, hother⟩
      · rw [heq, hempty]
      · exact absurd hat (hother p z rest rfl).1
  | reading b k rest =>
    obtain ⟨q, hvalid, heq, hne, hway⟩ := hok
    exact ⟨q, hvalid, by rw [hkept q hvalid (by rw [heq]; exact hne), heq], hne, hway⟩
  | returned z =>
    intro hz
    obtain ⟨hsl, heq⟩ := hok hz
    exact ⟨hsl, by rw [hkept _ hsl (by rw [heq]; exact hz), heq]⟩

/-! ## Runs -/

namespace Calls

variable {T : Type _} [DecidableEq T] [Fintype T] {blocks : T → Nat} {c c' : Calls T} {t u : T} {dev₀ : Dev}
  {others : Nat → Nat}

/-- What holds in every state: the calls have found what is in the zone tree, they wait for different zones, for
different places, and each used zone has been used before, is in the tree, or one of the calls waits for it. -/
structure Inv (zoned : Nat → Prop) (n : Nat) (blocks : T → Nat) (dev₀ : Dev) (others : Nat → Nat) (c : Calls T) :
    Prop where
  zones : ZoneInv False zoned noDead c.dev
  ok : ∀ t, (c.phase t).Ok zoned n (blocks t) c.dev
  apart : ∀ t u p z rest p' z' rest', t ≠ u → c.phase t = .making p z rest → c.phase u = .making p' z' rest' →
    p ≠ p' ∧ z ≠ z'
  counts : ∀ b, c.dev.held b = others b + refs Finset.univ (fun t => (c.phase t).holds) b
  kept : ∀ z, c.dev.Used z → dev₀.Used z ∨ (∃ sl : Slot, sl.Valid ∧ c.dev.slotZone n sl = z) ∨
    ∃ t p rest, c.phase t = .making p z rest

/-- While a call sleeps in `new_block`, no other one looks at the place that it has found empty, unless the device is
full. -/
def Careful (blocks : T → Nat) (c : Calls T) : Option T → Prop
  | none => True
  | some t => ∀ p, (c.phase t).Looks (blocks t) c.dev p → c.dev.spare ≠ 0 → ∀ u z rest, c.phase u ≠ .making p z rest

omit [Fintype T] in
theorem holds_update (f : Stage) :
    (fun u => (Function.update c.phase t f u).holds) = Function.update (fun u => (c.phase u).holds) t f.holds := by
  funext u
  by_cases hu : u = t
  · rw [hu, Function.update_self, Function.update_self]
  · rw [Function.update_of_ne hu, Function.update_of_ne hu]

omit [DecidableEq T] in
theorem Inv.holds (h : Inv zoned n blocks dev₀ others c) {b : Nat} (hb : (c.phase t).holds = some b) :
    c.dev.held b ≠ 0 := by
  have hpos : 0 < refs Finset.univ (fun t => (c.phase t).holds) b := refs_pos_iff.mpr ⟨t, Finset.mem_univ t, hb⟩
  have hcounts := h.counts b
  omega

omit [DecidableEq T] [Fintype T] in
/-- A used zone is not number 0. -/
theorem used_ne_zero {s : Dev} (h : ZoneInv tight zoned noDead s) {z : Nat} (hz : s.Used z) : z ≠ 0 := by
  have h1 := hz.1
  have h2 := h.sound.first_pos
  omega

omit [DecidableEq T] in
/-- A call goes on, and the others find what they have found where it was. -/
theorem Inv.others_ok {f : Stage} {dev : Dev} (h : Inv zoned n blocks dev₀ others c) (hn : zoned n)
    (hmoved : Moved zoned n (blocks t) (c.phase t) c.dev f dev) (hu : u ≠ t) :
    (c.phase u).Ok zoned n (blocks u) dev := by
  -- the call that moves stores another zone, in another place
  have hother : ∀ p' z' rest', c.phase u = .making p' z' rest' → ∀ p z rest, c.phase t = .making p z rest →
      p ≠ p' ∧ z ≠ z' :=
    fun p' z' rest' hm' p z rest hm => h.apart t u p z rest p' z' rest' (Ne.symm hu) hm hm'
  have hslots : ∀ m sl, zoned m → sl.Valid → dev.slotZone m sl = c.dev.slotZone m sl ∨
      m = n ∧ c.dev.slotZone n sl = 0 ∧
        ∀ p z rest, c.phase u = .making p z rest → ¬ p.At c.dev n sl ∧ dev.slotZone n sl ≠ z := by
    intro m sl hm hsl
    refine (hmoved.slots m sl hm hsl).imp_right ?_
    rintro ⟨hmn, hzero, p, z, rest, hmaking, hat, hval⟩
    refine ⟨hmn, hzero, fun p' z' rest' hm' => ?_⟩
    obtain ⟨hp, hz⟩ := hother p' z' rest' hm' p z rest hmaking
    exact ⟨fun hat' => hp (hat.inj hat'), by rw [hval]; exact hz⟩
  refine (h.ok u).mono hn hslots (fun y hy => (hmoved.used y).mpr (Or.inl hy)) (fun p z rest hm => ?_)
    fun b _ hup => hmoved.uptodate b hup
  -- nobody takes the buffer of a zone that is not in the tree
  have hpending : Pending zoned c.dev z := by
    have hok := h.ok u
    rw [hm] at hok
    exact hok.1
  have hheld := hmoved.held z
  rw [hpending.unheld] at hheld
  have hnone : f.holds ≠ some z := by
    intro hholds
    cases f with
    | making p' y rest' =>
      obtain ⟨-, sl, -, hat, -, -⟩ := hmoved.ok
      obtain ⟨-, q, hvalid, hq, -⟩ := hat.buffer_slot hholds
      rcases hslots n q hn hvalid with heq | ⟨-, -, hne⟩
      · rw [heq] at hq
        exact hpending.unowned n q hn hvalid hq
      · exact (hne p z rest hm).2 hq
    | idle => cases hholds
    | reading => cases hholds
    | returned => cases hholds
  rw [show one f.holds z = 0 from if_neg hnone] at hheld
  omega

theorem Inv.call {f : Stage} {dev : Dev} (h : Inv zoned n blocks dev₀ others c) (hn : zoned n)
    (hmoved : Moved zoned n (blocks t) (c.phase t) c.dev f dev) (hcareful : c.Careful blocks (some t)) :
    Inv zoned n blocks dev₀ others ⟨dev, Function.update c.phase t f⟩ := by
  refine ⟨hmoved.zones, fun u => ?_, fun u v p z rest p' z' rest' huv hm hm' => ?_, fun b => ?_, fun z hz => ?_⟩
  · show (Function.update c.phase t f u).Ok zoned n (blocks u) dev
    by_cases hu : u = t
    · rw [hu, Function.update_self]
      exact hmoved.ok
    · rw [Function.update_of_ne hu]
      exact h.others_ok hn hmoved hu
  · change Function.update c.phase t f u = _ at hm
    change Function.update c.phase t f v = _ at hm'
    -- a zone that has just been taken is not one that another call waits for
    have hnew : ∀ w p z rest p' z' rest', w ≠ t → f = .making p z rest → c.phase w = .making p' z' rest' →
        p ≠ p' ∧ z ≠ z' := by
      intro w p z rest p' z' rest' hw hf hm
      obtain ⟨hfree, hlooks, hspare⟩ := hmoved.fresh p z rest hf
      refine ⟨?_, ?_⟩
      · rintro rfl
        exact hcareful p hlooks hspare w z' rest' hm
      · rintro rfl
        have hok := h.ok w
        rw [hm] at hok
        exact hfree hok.1.used
    by_cases hu : u = t
    · rw [hu, Function.update_self] at hm
      have hv : v ≠ t := fun hv => huv (hu.trans hv.symm)
      rw [Function.update_of_ne hv] at hm'
      exact hnew v p z rest p' z' rest' hv hm hm'
    · rw [Function.update_of_ne hu] at hm
      by_cases hv : v = t
      · rw [hv, Function.update_self] at hm'
        obtain ⟨hp, hz⟩ := hnew u p' z' rest' p z rest hu hm' hm
        exact ⟨hp.symm, hz.symm⟩
      · rw [Function.update_of_ne hv] at hm'
        exact h.apart u v p z rest p' z' rest' huv hm hm'
  · have hheld := hmoved.held b
    have hcounts := h.counts b
    have hupdate := refs_update (r := fun t => (c.phase t).holds) (v := f.holds) (f := b) (Finset.mem_univ t)
    show dev.held b = others b + refs Finset.univ (fun u => (Function.update c.phase t f u).holds) b
    rw [holds_update]
    unfold one at hheld
    omega
  · change dev.Used z at hz
    rcases (hmoved.used z).mp hz with hold | ⟨p, rest, hf⟩
    · have hne := used_ne_zero h.zones hold
      rcases h.kept z hold with h₀ | ⟨sl, hsl, heq⟩ | ⟨u, p, rest, hm⟩
      · exact Or.inl h₀
      · refine Or.inr (Or.inl ⟨sl, hsl, ?_⟩)
        rcases hmoved.slots n sl hn hsl with hsame | ⟨-, hzero, -⟩
        · exact hsame.trans heq
        · exact absurd (heq.symm.trans hzero) hne
      · by_cases hu : u = t
        · rw [hu] at hm
          exact Or.inr (Or.inl (hmoved.stored p z rest hm))
        · refine Or.inr (Or.inr ⟨u, p, rest, ?_⟩)
          show Function.update c.phase t f u = _
          rw [Function.update_of_ne hu, hm]
    · refine Or.inr (Or.inr ⟨t, p, rest, ?_⟩)
      show Function.update c.phase t f t = _
      rw [Function.update_self, hf]

omit [DecidableEq T] in
theorem Inv.cache {cache : Cache} (h : Inv zoned n blocks dev₀ others c) (hn : zoned n)
    (hc : Cache.Background c.dev.cache cache) :
    Inv zoned n blocks dev₀ others { c with dev := { c.dev with cache := cache } } := by
  have hquiet := hc.quiet h.zones.coherent
  have hheld : ∀ b, cache.held b = c.dev.held b := fun b => congrFun hquiet.held b
  refine ⟨h.zones.quiet hquiet, fun t => ?_, h.apart, fun b => (hheld b).trans (h.counts b), fun z hz => ?_⟩
  · refine (h.ok t).mono hn (fun m sl _ _ => Or.inl (slotZone_quiet hquiet m sl)) (fun _ => id) (fun p z rest hm => ?_)
      fun b hb hup => hc.uptodate (h.holds hb) hup
    have hok := h.ok t
    rw [hm] at hok
    exact (hheld z).trans hok.1.unheld
  · refine (h.kept z hz).imp_right (Or.imp_left ?_)
    rintro ⟨sl, hsl, heq⟩
    exact ⟨sl, hsl, (slotZone_quiet hquiet n sl).trans heq⟩

theorem Step.inv {e : Option T} (h : Inv zoned n blocks dev₀ others c) (hn : zoned n) (hstep : Step n blocks c e c')
    (hcareful : c.Careful blocks e) : Inv zoned n blocks dev₀ others c' := by
  cases hstep with
  | @call t c' hrun =>
    obtain ⟨⟨f, dev⟩, hstage, hrest⟩ := ok_of_bind hrun
    cases hrest
    have hmoved := (Stage.step_moved h.zones hn (h.ok t) fun b hb => h.holds hb).of_ok _ hstage
    exact h.call hn hmoved hcareful
  | cache hc => exact h.cache hn hc

/-- Calls for the same block that have got a zone have got the same one, and a zone that has been used only since is
in the zone tree of the inode, or a call is about to put it there. -/
def Agree (n : Nat) (blocks : T → Nat) (dev₀ : Dev) (c : Calls T) : Prop :=
  (∀ t u z z', blocks t = blocks u → c.phase t = .returned z → c.phase u = .returned z' → z ≠ 0 → z' ≠ 0 → z = z') ∧
    ∀ z, c.dev.Used z → ¬ dev₀.Used z →
      (∃ sl : Slot, sl.Valid ∧ c.dev.slotZone n sl = z) ∨ ∃ t p rest, c.phase t = .making p z rest

omit [DecidableEq T] in
theorem Inv.agree (h : Inv zoned n blocks dev₀ others c) : Agree n blocks dev₀ c := by
  refine ⟨fun t u z z' htu ht hu hz hz' => ?_, fun z hz hnew => (h.kept z hz).resolve_left hnew⟩
  have hok := h.ok t
  have hok' := h.ok u
  rw [ht] at hok
  rw [hu, ← htu] at hok'
  exact (hok hz).2.symm.trans (hok' hz').2

/-- In a run in which no call looks at a place for which another one sleeps in `new_block`, the calls agree, and no
zone is lost. -/
theorem create_blocks_agree {es : List (Option T)} (hzones : ZoneInv tight zoned noDead c.dev) (hn : zoned n)
    (hstart : ∀ t, c.phase t = .idle)
    (hrun : Run (fun c e c' => Step n blocks c e c' ∧ c.Careful blocks e) c es c') : Agree n blocks c.dev c' := by
  have hinv : Inv zoned n blocks c.dev c.dev.held c := by
    refine ⟨hzones.loosen, fun t => ?_, fun t u p z rest p' z' rest' _ hm => ?_, fun b => ?_, fun z hz => Or.inl hz⟩
    · rw [hstart]
      trivial
    · rw [hstart] at hm
      cases hm
    · have hzero : refs Finset.univ (fun t => (c.phase t).holds) b = 0 := by
        refine refs_eq_zero_iff.mpr fun t _ => ?_
        rw [hstart]
        exact fun h => by cases h
      rw [hzero, Nat.add_zero]
  have hend : Inv zoned n blocks c.dev c.dev.held c' :=
    hrun.inv (fun _ _ _ h hstep => hstep.1.inv h hn hstep.2) hinv
  exact hend.agree

omit [Fintype T] in
/-- Calls that go on in a given order, and nothing else. -/
theorem run_goOn (ts : List T) (hrun : ts.foldlM (goOn n blocks) c = .ok c') :
    Run (Step n blocks) c (ts.map some) c' := by
  induction ts using List.reverseRecOn generalizing c' with
  | nil =>
    cases hrun
    exact .nil
  | append_singleton ts t ih =>
    obtain ⟨c₁, hfirst, hlast⟩ := foldlM_snoc_ok.mp hrun
    rw [List.map_append]
    exact (ih hfirst).snoc (.call hlast)

/-- Two processes are about to write the first block of an empty file. -/
def twoWriters : Calls Bool := ⟨emptyFile, fun _ => .idle⟩

/-- How far the two have come. -/
def stages (c : Calls Bool) : Stage × Stage := (c.phase false, c.phase true)

/-- A run of the two, evaluated. -/
theorem stages_run (ts : List Bool) (f f' : Stage)
    (h : (ts.foldlM (goOn 1 fun _ => 0) twoWriters).toOption.map stages = some (f, f')) :
    ∃ c, ts.foldlM (goOn 1 fun _ => 0) twoWriters = .ok c ∧ c.phase false = f ∧ c.phase true = f' := by
  cases hrun : ts.foldlM (goOn 1 fun _ => 0) twoWriters with
  | error e =>
    rw [hrun] at h
    cases h
  | ok c =>
    rw [hrun] at h
    cases h
    exact ⟨c, rfl, rfl, rfl⟩

/-- If one of them is done before the other one begins, they get the same zone. -/
theorem create_blocks_agree_in_turn : ∃ c : Calls Bool, c.phase false = .returned 10 ∧ c.phase true = .returned 10 ∧
    Agree 1 (fun _ => 0) twoWriters.dev c := by
  obtain ⟨c₁, hrun₁, hfirst₁, -⟩ := stages_run [false] (.making (.zone 0) 10 []) .idle (by decide +kernel)
  obtain ⟨c₂, hrun₂, hfirst₂, hsecond₂⟩ :=
    stages_run [false, false] (.returned 10) .idle (by decide +kernel)
  obtain ⟨c₃, hrun₃, hfirst₃, hsecond₃⟩ :=
    stages_run [false, false, true] (.returned 10) (.returned 10) (by decide +kernel)
  obtain ⟨c', hrun', hstep₂⟩ := foldlM_snoc_ok.mp (show ([false] ++ [false]).foldlM _ _ = _ from hrun₂)
  cases hrun₁.symm.trans hrun'
  obtain ⟨c', hrun', hstep₃⟩ := foldlM_snoc_ok.mp (show ([false, false] ++ [true]).foldlM _ _ = _ from hrun₃)
  cases hrun₂.symm.trans hrun'
  obtain ⟨c', hrun', hstep₁⟩ := foldlM_snoc_ok.mp (show ([] ++ [false]).foldlM _ _ = _ from hrun₁)
  cases hrun'
  -- nobody sleeps when a place is looked at
  have hcareful₁ : twoWriters.Careful (fun _ => 0) (some false) := fun p _ _ u z rest hm => by cases hm
  have hcareful₂ : c₁.Careful (fun _ => 0) (some false) := fun p hlooks => by
    rw [hfirst₁] at hlooks
    exact hlooks.elim
  have hcareful₃ : c₂.Careful (fun _ => 0) (some true) := fun p _ _ u z rest hm => by
    cases u with
    | false => cases hfirst₂.symm.trans hm
    | true => cases hsecond₂.symm.trans hm
  have hstart : Run (fun (c : Calls Bool) e c' => Step 1 (fun _ => 0) c e c' ∧ c.Careful (fun _ => 0) e)
    twoWriters [] twoWriters := .nil
  have hrun := ((hstart.snoc ⟨.call hstep₁, hcareful₁⟩).snoc ⟨.call hstep₂, hcareful₂⟩).snoc
    ⟨.call hstep₃, hcareful₃⟩
  exact ⟨c₃, hfirst₃, hsecond₃,
    create_blocks_agree emptyFile_inOrder.zones (Or.inl (by decide)) (fun _ => rfl) hrun⟩

/-- Both look at `i_zone[0]` before one of them has a zone: they get different ones, and the first one is lost. -/
theorem create_blocks_race : emptyFile.InOrder ∧ emptyFile.Filed 1 ∧ ∃ (ts : List Bool) (c : Calls Bool),
    Run (Step 1 fun _ => 0) twoWriters (ts.map some) c ∧ c.phase false = .returned 10 ∧ c.phase true = .returned 11 ∧
      c.dev.Used 10 ∧ ¬ emptyFile.Used 10 ∧ ∀ sl : Slot, sl.Valid → c.dev.slotZone 1 sl ≠ 10 := by
  refine ⟨emptyFile_inOrder, Or.inl (by decide), [false, true, false, true], ?_⟩
  obtain ⟨c, hrun, hfirst, hsecond⟩ :=
    stages_run [false, true, false, true] (.returned 10) (.returned 11) (by decide +kernel)
  have hsuper : ([false, true, false, true].foldlM (goOn 1 fun _ => 0) twoWriters).toOption.map (fun c =>
      (c.dev.super.sFirstdatazone, c.dev.super.sNzones, c.dev.zmap 1)) = some (10, 100, true) := by decide +kernel
  have hzone : ([false, true, false, true].foldlM (goOn 1 fun _ => 0) twoWriters).toOption.map (fun c =>
      (List.range 9).all fun k => (c.dev.inode 1).iZone k == if k = 0 then 11 else 0) = some true := by decide +kernel
  rw [hrun] at hsuper hzone
  simp only [Except.toOption, Option.map_some, Option.some.injEq, Prod.mk.injEq] at hsuper hzone
  have hnumber : ∀ k < 9, (c.dev.inode 1).iZone k = if k = 0 then 11 else 0 := fun k hk =>
    eq_of_beq (List.all_eq_true.mp hzone k (List.mem_range.mpr hk))
  refine ⟨c, run_goOn _ hrun, hfirst, hsecond, ?_, fun hused => ?_, fun sl hsl => ?_⟩
  · unfold Dev.Used
    rw [hsuper.1, hsuper.2.1]
    exact ⟨by decide, by decide, hsuper.2.2⟩
  · exact absurd hused.2.2 (by decide)
  · have hzero : ∀ k < 9, k ≠ 0 → c.dev.slotZone 1 (.zone k) = 0 := fun k hk hne => (hnumber k hk).trans (if_neg hne)
    cases sl with
    | zone k =>
      show (c.dev.inode 1).iZone k ≠ 10
      rw [hnumber k hsl]
      split <;> decide
    | ind k => rw [slotZone_below (List.mem_singleton.mpr rfl) (hzero 7 (by decide) (by decide))]; decide
    | dind k => rw [slotZone_below (List.mem_singleton.mpr rfl) (hzero 8 (by decide) (by decide))]; decide
    | leaf k l => rw [slotZone_below List.mem_cons_self (hzero 8 (by decide) (by decide))]; decide

end Calls

end Linux011.Fs
