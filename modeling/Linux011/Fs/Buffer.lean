import Mathlib.Algebra.Group.Int.Defs
import Mathlib.Algebra.Group.Nat.Defs
import Mathlib.Logic.Function.Basic
import Linux011.Lib.Outcome

/-!
# The buffer cache of one device

`fs/buffer.c` over `kernel/blk_drv/ll_rw_blk.c`, as one process sees it: a request is finished when the
process goes on, so no buffer is locked, and a buffer is named by its block number. How `getblk` finds
a buffer to reuse is the subject of `Linux011.Fs.BufferHeads`; here a block that is not cached gets a
fresh buffer with whatever bytes the old one held, and write-backs and evictions are steps of their own
(`Background`).

`contents` is what the cache stands for: the bytes a reader of a block would see. Each operation has
one lemma about the contents, the reference counts and `Coherent`.
-/

namespace Linux011.Fs

open Linux011.Lib

/-- The text of a kernel panic. -/
abbrev Panic := String

/-- `struct buffer_head`, without its queue links. -/
structure Buffer where
  data : Nat → UInt8
  uptodate : Bool
  dirt : Bool
  count : Nat

structure Cache where
  buffer : Nat → Option Buffer
  disk : Nat → Nat → UInt8
  works : Nat → Bool                 -- whether requests for the block succeed
  recycled : Nat → Nat → UInt8       -- the bytes in a buffer that `getblk` hands out anew

inductive Rw where
  | read
  | write
  | reada

namespace Cache

def set (b : Nat) (h : Buffer) (c : Cache) : Cache :=
  { c with buffer := Function.update c.buffer b (some h) }

/-- The buffer of a block, or the one it would get. -/
def head (c : Cache) (b : Nat) : Buffer := (c.buffer b).getD ⟨c.recycled b, false, false, 0⟩

/-! ## fs/buffer.c -/

def getblk (b : Nat) (c : Cache) : Cache :=
  match c.buffer b with
  | some h => c.set b { h with count := h.count + 1 }
  | none => c.set b ⟨c.recycled b, false, false, 1⟩

def brelse (b : Nat) (c : Cache) : Except Panic Cache :=
  if (c.head b).count = 0 then .error "Trying to free free buffer"
  else .ok (c.set b { c.head b with count := (c.head b).count - 1 })

/-- `ll_rw_block`. `make_request` passes over a read of a buffer that is up to date and a write of a clean
one; `add_request` clears `b_dirt`, for a read too; `end_request` sets `b_uptodate`. -/
def llRwBlock (rw : Rw) (b : Nat) (c : Cache) : Cache :=
  let h := c.head b
  match rw with
  | .read | .reada =>
    if h.uptodate then c
    else if c.works b then c.set b { h with data := c.disk b, uptodate := true, dirt := false }
    else c.set b { h with dirt := false }
  | .write =>
    if !h.dirt then c
    else if c.works b then
      { c with disk := Function.update c.disk b h.data }.set b { h with uptodate := true, dirt := false }
    else c.set b { h with uptodate := false, dirt := false }

/-- `bread`, with `false` for a block that cannot be read. -/
def bread (b : Nat) (c : Cache) : Except Panic (Bool × Cache) :=
  let c := c.getblk b
  if (c.head b).uptodate then .ok (true, c)
  else
    let c := c.llRwBlock .read b
    if (c.head b).uptodate then .ok (true, c)
    else do
      let c ← c.brelse b
      return (false, c)

/-- One of the further blocks of `breada`. The request for it is made for `bh`, the buffer of the first
block. -/
def readAhead (bh tmp : Nat) (c : Cache) : Cache :=
  let c := c.getblk tmp
  let c := if (c.head tmp).uptodate then c else c.llRwBlock .reada bh
  c.set tmp { c.head tmp with count := (c.head tmp).count - 1 }

def breada (first : Nat) (ahead : List Nat) (c : Cache) : Except Panic (Bool × Cache) :=
  let c := c.getblk first
  let c := if (c.head first).uptodate then c else c.llRwBlock .read first
  let c := ahead.foldl (fun c tmp => c.readAhead first tmp) c
  if (c.head first).uptodate then .ok (true, c)
  else do
    let c ← c.brelse first
    return (false, c)

/-- A change of the bytes of a buffer, and `b_dirt = 1`. -/
def modify (b : Nat) (f : (Nat → UInt8) → Nat → UInt8) (c : Cache) : Cache :=
  c.set b { c.head b with data := f (c.head b).data, dirt := true }

/-- All the dirty buffers of a device are written, as by the loops of `sync_dev`. -/
def flush (c : Cache) : Cache where
  buffer := fun b => (c.buffer b).map fun h =>
    if h.dirt then { h with uptodate := c.works b, dirt := false } else h
  disk := fun b => if (c.head b).dirt && c.works b then (c.head b).data else c.disk b
  works := c.works
  recycled := c.recycled

/-- The buffer of a block is put to another use; `r` are the bytes found in buffers handed out later. -/
def evict (b : Nat) (r : Nat → Nat → UInt8) (c : Cache) : Cache :=
  { c with buffer := Function.update c.buffer b none, recycled := r }

/-! ## What the cache stands for -/

/-- The bytes of a block, as `bread` would find them. -/
def contents (c : Cache) (b : Nat) : Nat → UInt8 :=
  if (c.head b).uptodate then (c.head b).data else c.disk b

/-- The references to the buffer of a block. -/
def held (c : Cache) (b : Nat) : Nat := (c.head b).count

/-- A clean buffer that is up to date is a copy of the disk, and a dirty one is up to date. -/
structure Coherent (c : Cache) : Prop where
  clean : ∀ b, (c.head b).uptodate = true → (c.head b).dirt = false → (c.head b).data = c.disk b
  dirty : ∀ b, (c.head b).dirt = true → (c.head b).uptodate = true

/-- What other parts of the kernel do to the cache at any moment: `sync_dev` writes a buffer back,
`getblk` reuses a clean buffer for another device. -/
inductive Background (c : Cache) : Cache → Prop
  | write (b : Nat) (hworks : c.works b = true) : Background c (c.llRwBlock .write b)
  | evict (b : Nat) (r : Nat → Nat → UInt8) (hfree : (c.head b).count = 0)
      (hclean : (c.head b).dirt = false) : Background c (c.evict b r)

/-- More may be cached, and the reference counts may differ. -/
structure Same (c c' : Cache) : Prop where
  contents : c'.contents = c.contents
  works : c'.works = c.works
  uptodate : ∀ b, (c.head b).uptodate = true → (c'.head b).uptodate = true
  coherent : c.Coherent → c'.Coherent

variable {c c' : Cache} {b : Nat}

theorem Same.refl (c : Cache) : Same c c := ⟨rfl, rfl, fun _ => id, id⟩

theorem Same.trans {c'' : Cache} (h : Same c c') (h' : Same c' c'') : Same c c'' :=
  ⟨h'.contents.trans h.contents, h'.works.trans h.works,
    fun b hup => h'.uptodate b (h.uptodate b hup), h'.coherent ∘ h.coherent⟩

theorem head_set (h : Buffer) (b' : Nat) :
    (c.set b h).head b' = if b' = b then h else c.head b' := by
  unfold head set
  by_cases hb : b' = b
  · simp [hb]
  · simp [hb]

@[simp] theorem head_set_self (h : Buffer) : (c.set b h).head b = h := by
  rw [head_set, if_pos rfl]

theorem head_set_of_ne {h : Buffer} {b' : Nat} (hne : b' ≠ b) : (c.set b h).head b' = c.head b' := by
  rw [head_set, if_neg hne]

@[simp] theorem disk_set (h : Buffer) : (c.set b h).disk = c.disk := rfl

@[simp] theorem works_set (h : Buffer) : (c.set b h).works = c.works := rfl

/-- A cached block and one that is not cached are treated alike. -/
theorem getblk_eq : c.getblk b = c.set b { c.head b with count := (c.head b).count + 1 } := by
  unfold getblk head
  cases c.buffer b with
  | none => rfl
  | some h => rfl

theorem set_contents (h : Buffer) :
    (c.set b h).contents
      = Function.update c.contents b (if h.uptodate then h.data else c.disk b) := by
  funext b'
  unfold contents
  rcases eq_or_ne b' b with rfl | hne
  · rw [head_set_self, Function.update_self, disk_set]
  · rw [head_set_of_ne hne, Function.update_of_ne hne, disk_set]

theorem set_held (h : Buffer) : (c.set b h).held = Function.update c.held b h.count := by
  funext b'
  unfold held
  rcases eq_or_ne b' b with rfl | hne
  · rw [head_set_self, Function.update_self]
  · rw [head_set_of_ne hne, Function.update_of_ne hne]

theorem Coherent.set (hc : c.Coherent) {h : Buffer}
    (hclean : h.uptodate = true → h.dirt = false → h.data = c.disk b)
    (hdirty : h.dirt = true → h.uptodate = true) : (c.set b h).Coherent := by
  constructor
  · intro b'
    rcases eq_or_ne b' b with rfl | hne
    · rw [head_set_self]
      exact hclean
    · rw [head_set_of_ne hne]
      exact hc.clean b'
  · intro b'
    rcases eq_or_ne b' b with rfl | hne
    · rw [head_set_self]
      exact hdirty
    · rw [head_set_of_ne hne]
      exact hc.dirty b'

theorem uptodate_set {h : Buffer} (hup : (c.head b).uptodate = true → h.uptodate = true) (b' : Nat)
    (hb' : (c.head b').uptodate = true) : ((c.set b h).head b').uptodate = true := by
  rcases eq_or_ne b' b with rfl | hne
  · rw [head_set_self]
    exact hup hb'
  · rw [head_set_of_ne hne]
    exact hb'

/-- A change of the reference count alone. -/
theorem same_count (n : Nat) : Same c (c.set b { c.head b with count := n }) := by
  refine ⟨?_, rfl, uptodate_set id, fun hc => hc.set (hc.clean b) (hc.dirty b)⟩
  rw [set_contents]
  exact Function.update_eq_self b c.contents

theorem same_getblk (b : Nat) : Same c (c.getblk b) := by
  rw [getblk_eq]
  exact same_count _

theorem held_getblk (b : Nat) : (c.getblk b).held = Function.update c.held b (c.held b + 1) := by
  rw [getblk_eq, set_held]
  rfl

theorem brelse_spec {n : Nat} (hheld : c.held b = n + 1) :
    Post (c.brelse b) (fun c' => Same c c' ∧ c'.held = Function.update c.held b n)
      (fun _ => False) := by
  unfold brelse
  change (c.head b).count = n + 1 at hheld
  rw [if_neg (by omega)]
  refine Post.ret ⟨same_count _, ?_⟩
  rw [set_held, hheld]
  rfl

theorem same_read : Same c (c.llRwBlock .read b) := by
  unfold llRwBlock
  simp only
  split
  · exact Same.refl c
  · next hup =>
    have hold : c.contents b = c.disk b := if_neg hup
    split
    · refine ⟨?_, rfl, uptodate_set fun _ => rfl, fun hc => hc.set (fun _ _ => rfl) fun h => by cases h⟩
      rw [set_contents, if_pos rfl, ← hold]
      exact Function.update_eq_self b c.contents
    · refine ⟨?_, rfl, uptodate_set id, fun hc => hc.set (fun h => absurd h hup) fun h => by cases h⟩
      rw [set_contents, if_neg (by exact hup), ← hold]
      exact Function.update_eq_self b c.contents

theorem held_read : (c.llRwBlock .read b).held = c.held := by
  unfold llRwBlock
  simp only
  split
  · rfl
  · split
    · rw [set_held]
      exact Function.update_eq_self b c.held
    · rw [set_held]
      exact Function.update_eq_self b c.held

theorem uptodate_read (hworks : c.works b = true) :
    ((c.llRwBlock .read b).head b).uptodate = true := by
  unfold llRwBlock
  simp only
  split
  · next hup => exact hup
  · rw [head_set_self]

theorem bread_uptodate (hup : (c.head b).uptodate = true) : c.bread b = .ok (true, c.getblk b) := by
  unfold bread
  exact if_pos ((same_getblk b).uptodate b hup)

/-- `bread` leaves the contents as they are, and fails only where requests fail. A buffer that it gives
is up to date and has one more reference. -/
theorem bread_spec (b : Nat) (c : Cache) :
    Post (c.bread b)
      (fun r => Same c r.2 ∧
        ((r.1 = true ∧ (r.2.head b).uptodate = true ∧
            r.2.held = Function.update c.held b (c.held b + 1)) ∨
          (r.1 = false ∧ c.works b = false ∧ r.2.held = c.held)))
      (fun _ => False) := by
  unfold bread
  simp only
  split
  · next hup => exact Post.ret ⟨same_getblk b, Or.inl ⟨rfl, hup, held_getblk b⟩⟩
  · have hsame : Same c ((c.getblk b).llRwBlock .read b) := (same_getblk b).trans same_read
    have hheld : ((c.getblk b).llRwBlock .read b).held = Function.update c.held b (c.held b + 1) := by
      rw [held_read, held_getblk]
    split
    · next hup => exact Post.ret ⟨hsame, Or.inl ⟨rfl, hup, hheld⟩⟩
    · next hbad =>
      have hfail : c.works b = false := by
        cases hworks : c.works b with
        | false => rfl
        | true => exact absurd (uptodate_read (by rw [(same_getblk b).works, hworks])) hbad
      refine Post.bind (brelse_spec (n := c.held b) (by rw [hheld, Function.update_self])) ?_
      rintro c' ⟨hsame', hheld'⟩
      refine Post.ret ⟨hsame.trans hsame', Or.inr ⟨rfl, hfail, ?_⟩⟩
      rw [hheld', hheld, Function.update_idem, Function.update_eq_self]

/-- A change of the reference count does not touch the rest of the buffer. -/
theorem uptodate_count (n z : Nat) :
    ((c.set b { c.head b with count := n }).head z).uptodate = (c.head z).uptodate := by
  by_cases hz : z = b
  · rw [hz, head_set_self]
  · rw [head_set_of_ne hz]

theorem uptodate_getblk (z : Nat) : ((c.getblk b).head z).uptodate = (c.head z).uptodate := by
  rw [getblk_eq]
  exact uptodate_count _ z

theorem uptodate_brelse : Post (c.brelse b) (fun c' => ∀ z, (c'.head z).uptodate = (c.head z).uptodate)
    (fun _ => True) := by
  unfold brelse
  split
  · exact Post.stop trivial
  · exact Post.ret (uptodate_count _)

/-- A read makes the buffer of the block up to date, if the request succeeds, and no other one. -/
theorem uptodate_llRwBlock (z : Nat) (hz : ((c.llRwBlock .read b).head z).uptodate = true) :
    (c.head z).uptodate = true ∨ z = b ∧ c.works b = true := by
  unfold llRwBlock at hz
  dsimp only at hz
  split at hz
  · exact Or.inl hz
  · split at hz
    · next hworks =>
      by_cases heq : z = b
      · exact Or.inr ⟨heq, hworks⟩
      · rw [head_set_of_ne heq] at hz
        exact Or.inl hz
    · by_cases heq : z = b
      · rw [heq, head_set_self] at hz
        exact Or.inl (by rw [heq]; exact hz)
      · rw [head_set_of_ne heq] at hz
        exact Or.inl hz

/-- A buffer is up to date after `bread` only if its block could be read before. -/
theorem bread_readable : Post (c.bread b)
    (fun r => (∀ z, (r.2.head z).uptodate = true → (c.head z).uptodate = true ∨ c.works z = true) ∧
      (r.1 = true → (c.head b).uptodate = true ∨ c.works b = true))
    (fun _ => True) := by
  have hget : ∀ z, ((c.getblk b).head z).uptodate = true → (c.head z).uptodate = true ∨ c.works z = true := by
    intro z hz
    rw [uptodate_getblk] at hz
    exact Or.inl hz
  have hread : ∀ z, (((c.getblk b).llRwBlock .read b).head z).uptodate = true →
      (c.head z).uptodate = true ∨ c.works z = true := by
    intro z hz
    rcases uptodate_llRwBlock z hz with hup | ⟨rfl, hworks⟩
    · exact hget z hup
    · rw [(same_getblk z).works] at hworks
      exact Or.inr hworks
  unfold bread
  dsimp only
  split
  · next hup => exact Post.ret ⟨hget, fun _ => hget b hup⟩
  · split
    · next hup => exact Post.ret ⟨hread, fun _ => hread b hup⟩
    · refine Post.bind (uptodate_brelse (c := (c.getblk b).llRwBlock .read b)) fun c' hc' => ?_
      refine Post.ret ⟨fun z hz => hread z ?_, fun hfalse => (by cases hfalse)⟩
      rw [← hc' z]
      exact hz

/-- The bytes of block `b` become `data`; nothing else that matters changes. -/
structure Wrote (c : Cache) (b : Nat) (data : Nat → UInt8) (c' : Cache) : Prop where
  contents : c'.contents = Function.update c.contents b data
  held : c'.held = c.held
  works : c'.works = c.works
  uptodate : ∀ b', (c.head b').uptodate = true → (c'.head b').uptodate = true
  coherent : c.Coherent → c'.Coherent

theorem modify_spec (f : (Nat → UInt8) → Nat → UInt8) (hup : (c.head b).uptodate = true) :
    Wrote c b (f (c.contents b)) (c.modify b f) := by
  have hnow : c.contents b = (c.head b).data := if_pos hup
  refine ⟨?_, ?_, rfl, uptodate_set id, ?_⟩
  · rw [modify, set_contents, if_pos (by exact hup), hnow]
  · rw [modify, set_held]
    exact Function.update_eq_self b c.held
  · intro hc
    exact hc.set (fun _ hd => by cases hd) fun _ => hup

/-- Neither write-backs nor evictions change the contents. -/
structure Quiet (c c' : Cache) : Prop where
  contents : c'.contents = c.contents
  held : c'.held = c.held
  works : c'.works = c.works
  coherent : c'.Coherent

theorem quiet_write (hc : c.Coherent) (hworks : c.works b = true) :
    Quiet c (c.llRwBlock .write b) := by
  unfold llRwBlock
  simp only
  split
  · exact ⟨rfl, rfl, rfl, hc⟩
  · next hdirt =>
    have hup : (c.head b).uptodate = true := hc.dirty b (by simpa using hdirt)
    refine ⟨?_, (set_held _).trans (Function.update_eq_self b c.held), rfl,
      ⟨fun b' => ?_, fun b' => ?_⟩⟩
    · funext b'
      unfold contents
      rcases eq_or_ne b' b with rfl | hne
      · rw [head_set_self, if_pos hup]
        rfl
      · rw [head_set_of_ne hne, disk_set]
        simp only [Function.update_of_ne hne]
        rfl
    · rcases eq_or_ne b' b with rfl | hne
      · rw [head_set_self, disk_set]
        simp
      · rw [head_set_of_ne hne, disk_set]
        simp only [Function.update_of_ne hne]
        exact hc.clean b'
    · rcases eq_or_ne b' b with rfl | hne
      · rw [head_set_self]
        exact fun h => by cases h
      · rw [head_set_of_ne hne]
        exact hc.dirty b'

/-- The buffers of the other blocks are the same, up to bytes that nobody has written yet. -/
theorem head_evict (c : Cache) (b : Nat) (r : Nat → Nat → UInt8) :
    (c.evict b r).head b = ⟨r b, false, false, 0⟩ ∧
      ∀ b' ≠ b, ∃ d, (c.evict b r).head b' = { c.head b' with data := d } ∧
        ((c.head b').uptodate = true ∨ (c.head b').dirt = true → d = (c.head b').data) := by
  refine ⟨by simp [head, evict], fun b' hne => ?_⟩
  have hbuf : (c.evict b r).buffer b' = c.buffer b' := Function.update_of_ne hne _ _
  unfold head
  rw [hbuf]
  cases c.buffer b' with
  | none => exact ⟨r b', rfl, fun h => by simp at h⟩
  | some h => exact ⟨h.data, rfl, fun _ => rfl⟩

theorem quiet_evict (r : Nat → Nat → UInt8) (hfree : (c.head b).count = 0)
    (hclean : (c.head b).dirt = false) (hc : c.Coherent) : Quiet c (c.evict b r) := by
  obtain ⟨hself, hother⟩ := head_evict c b r
  refine ⟨?_, ?_, rfl, ⟨fun b' => ?_, fun b' => ?_⟩⟩
  · funext b'
    unfold contents
    rcases eq_or_ne b' b with rfl | hne
    · rw [hself, if_neg (by simp)]
      split
      · next hup => exact (hc.clean b' hup hclean).symm
      · rfl
    · obtain ⟨d, hd, hdata⟩ := hother b' hne
      rw [hd]
      split
      · next hup => exact hdata (Or.inl hup)
      · rfl
  · funext b'
    unfold held
    rcases eq_or_ne b' b with rfl | hne
    · rw [hself, hfree]
    · obtain ⟨d, hd, -⟩ := hother b' hne
      rw [hd]
  · rcases eq_or_ne b' b with rfl | hne
    · rw [hself]
      exact fun h => by cases h
    · obtain ⟨d, hd, hdata⟩ := hother b' hne
      rw [hd]
      intro hup hdirt
      exact (hdata (Or.inl hup)).trans (hc.clean b' hup hdirt)
  · rcases eq_or_ne b' b with rfl | hne
    · rw [hself]
      exact fun h => by cases h
    · obtain ⟨d, hd, -⟩ := hother b' hne
      rw [hd]
      exact hc.dirty b'

theorem Background.quiet (hc : c.Coherent) (h : Background c c') : Quiet c c' := by
  cases h with
  | write b hworks => exact quiet_write hc hworks
  | evict b r hfree hclean => exact quiet_evict r hfree hclean hc

theorem head_flush (c : Cache) (b : Nat) :
    c.flush.head b = if (c.head b).dirt then { c.head b with uptodate := c.works b, dirt := false } else c.head b := by
  have hbuffer : c.flush.buffer b = (c.buffer b).map fun h =>
      if h.dirt then { h with uptodate := c.works b, dirt := false } else h := rfl
  unfold head
  rw [hbuffer]
  cases c.buffer b with
  | none => rfl
  | some h => rfl

theorem same_flush {c : Cache} (hworks : ∀ b, c.works b = true) (hc : c.Coherent) :
    Same c c.flush ∧ c.flush.held = c.held := by
  have hup (b : Nat) (hd : (c.head b).dirt = true) := hc.dirty b hd
  refine ⟨⟨funext fun b => ?_, rfl, fun b hb => ?_, fun _ => ⟨fun b hb hd => ?_, fun b hd => ?_⟩⟩, funext fun b => ?_⟩
  · unfold contents
    rw [head_flush]
    by_cases hd : (c.head b).dirt = true
    · rw [if_pos hd, if_pos (hworks b), if_pos (hup b hd)]
    · rw [if_neg hd]
      simp [flush, hd]
  · rw [head_flush]
    split
    · exact hworks b
    · exact hb
  · rw [head_flush] at hb hd ⊢
    by_cases hold : (c.head b).dirt = true
    · simp [flush, hold, hworks]
    · rw [if_neg hold] at hb hd ⊢
      rw [hc.clean b hb hd]
      simp [flush, hold]
  · rw [head_flush] at hd ⊢
    split at hd
    · cases hd
    · rename_i hold
      exact (hold hd).elim
  · unfold held
    rw [head_flush]
    split
    · rfl
    · rfl

/-- A buffer that somebody holds is not put to another use. -/
theorem Background.uptodate (h : Background c c') (hheld : c.held b ≠ 0) (hup : (c.head b).uptodate = true) :
    (c'.head b).uptodate = true := by
  cases h with
  | write b' hworks =>
    unfold llRwBlock
    dsimp only
    split
    · exact hup
    · by_cases hb : b = b'
      · rw [hb, head_set_self]
      · rw [head_set_of_ne hb]
        exact hup
  | evict b' r hfree hclean =>
    have hb : b ≠ b' := by
      rintro rfl
      exact hheld hfree
    obtain ⟨d, hd, -⟩ := (head_evict c b' r).2 b hb
    rw [hd]
    exact hup

end Cache

end Linux011.Fs
