import Mathlib.Logic.Relation
import Linux011.Fs.BufferQueues
import Linux011.Fs.Getblk
import Linux011.Lib.Run

/-!
# Calls that share the buffers

Any number of processes call `getblk`, `get_hash_table` and `brelse`. One of them runs, a statement after the
other, until it sleeps or returns; requests complete at any time. Where a call can sleep, any other may go on, and
one that has been woken looks again. `b_count` has 8 bits.

Between its calls, a process does what it likes with a buffer that is referenced, except that it leaves the block
and the count alone. The calls that `sync_inodes` makes are like those of another process.
-/

namespace Linux011.Fs

/-- `get_hash_table`: at `find_buffer`, in `wait_on_buffer` or behind it. -/
inductive TablePlace where
  | find
  | wait (b : Nat)
  | compare (b : Nat)
  deriving DecidableEq

/-- `getblk`: in `get_hash_table`; at a buffer of the free list, with the best one so far; asleep on
`buffer_wait`; in `wait_on_buffer` with its choice; at the tests of `b_count` and `b_dirt`; in pass 1 or 2 of
`sync_dev`, at a buffer, in its `wait_on_buffer` or in `ll_rw_block`; at the last `find_buffer`; and behind it. -/
inductive GetblkPlace where
  | table (p : TablePlace)
  | scan (tmp : Nat) (bh : Option Nat)
  | asleep
  | wait (b : Nat)
  | count (b : Nat)
  | dirt (b : Nat)
  | sync (b dev : Nat) (second : Bool) (i : Nat)
  | syncWait (b dev : Nat) (second : Bool) (i : Nat)
  | syncRequest (b dev : Nat) (second : Bool) (i : Nat)
  | recheck (b : Nat)
  | take (b : Nat)
  deriving DecidableEq

/-- A call on its way. -/
inductive Call where
  | getHashTable (k : BlockOf) (p : TablePlace)
  | getblk (k : BlockOf) (p : GetblkPlace)
  | brelse (buf : Option Nat)
  deriving DecidableEq

/-- What a statement leads to: another one, a place where the process sleeps, or the end of the call. -/
inductive Next (P : Type) where
  | go (p : P)
  | sleep (p : P)
  | ret (bh : Option Nat)

def Next.map {P Q : Type} (f : P → Q) : Next P → Next Q
  | .go p => .go (f p)
  | .sleep p => .sleep (f p)
  | .ret bh => .ret bh

namespace BufferCache

/-- `b_count++` -/
def hold (b : Nat) (C : BufferCache) : BufferCache :=
  C.set b { C.head b with bCount := ((C.head b).bCount + 1) % 256 }

/-- `b_count--` -/
def drop (b : Nat) (C : BufferCache) : BufferCache :=
  C.set b { C.head b with bCount := ((C.head b).bCount + 255) % 256 }

/-- `BADNESS` -/
def badness (C : BufferCache) (b : Nat) : Nat := 2 * (C.head b).bDirt.toNat + (C.head b).bLock.toNat

/-- `get_hash_table` -/
def getHashTable (k : BlockOf) : TablePlace → BufferCache → Next TablePlace × BufferCache
  | .find, C =>
    match C.findBuffer k.dev k.block with
    | none => (.ret none, C)
    | some b => (.go (.wait b), C.hold b)
  | .wait b, C => if (C.head b).bLock then (.sleep (.wait b), C) else (.go (.compare b), C)
  | .compare b, C => if C.Is b k.dev k.block then (.ret (some b), C) else (.go .find, C.drop b)

/-- Behind the search through the free list. -/
def picked : Option Nat → Next GetblkPlace
  | none => .sleep .asleep
  | some b => .go (.wait b)

/-- `getblk`; `none` for a panic. `slot` says whether `make_request` finds a free request. -/
def getblk (requestFn : Nat → Bool) (slot : Bool) (k : BlockOf) :
    GetblkPlace → BufferCache → Option (Next GetblkPlace × BufferCache)
  | .table p, C =>
    match C.getHashTable k p with
    | (.go p, C) => some (.go (.table p), C)
    | (.sleep p, C) => some (.sleep (.table p), C)
    | (.ret (some b), C) => some (.ret (some b), C)
    | (.ret none, C) => some (.go (.scan C.freeList none), C)
  | .scan tmp bh, C =>
    let better := (C.head tmp).bCount = 0 ∧ bh.all fun b => decide (C.badness tmp < C.badness b)
    if better ∧ C.badness tmp = 0 then some (picked (some tmp), C)
    else
      let bh := if better then some tmp else bh
      match C.free.next tmp with
      | none => none
      | some next => some (if next = C.freeList then picked bh else .go (.scan next bh), C)
  | .asleep, C => some (.go (.table .find), C)
  | .wait b, C => some (if (C.head b).bLock then .sleep (.wait b) else .go (.count b), C)
  | .count b, C => some (if (C.head b).bCount ≠ 0 then .go (.table .find) else .go (.dirt b), C)
  | .dirt b, C => some (if (C.head b).bDirt then .go (.sync b (C.head b).bDev false 0) else .go (.recheck b), C)
  | .sync b dev second i, C =>
    if i < C.nrBuffers then
      some (if (C.head i).bDev ≠ dev then .go (.sync b dev second (i + 1)) else .go (.syncWait b dev second i), C)
    else if second then some (.go (.wait b), C)
    else some (.sleep (.sync b dev true 0), C)
  | .syncWait b dev second i, C =>
    if (C.head i).bLock then some (.sleep (.syncWait b dev second i), C)
    else if (C.head i).bDev = dev ∧ (C.head i).bDirt ∧ Heads.driven requestFn dev then
      some (.go (.syncRequest b dev second i), C.set i { C.head i with bLock := true })
    else some (.go (.sync b dev second (i + 1)), C)
  | .syncRequest b dev second i, C =>
    if slot then some (.go (.sync b dev second (i + 1)), C.set i { C.head i with bDirt := false })
    else some (.sleep (.syncRequest b dev second i), C)
  | .recheck b, C => some (if (C.findBuffer k.dev k.block).isSome then .go (.table .find) else .go (.take b), C)
  | .take b, C => (C.reassign b k.dev k.block).map fun C => (.ret (some b), C)

/-- `brelse`; `none` for its panic. -/
def brelse : Option Nat → BufferCache → Option (Next (Option Nat) × BufferCache)
  | none, C => some (.ret none, C)
  | some b, C =>
    if (C.head b).bLock then some (.sleep (some b), C)
    else if (C.head b).bCount = 0 then none
    else some (.ret none, C.drop b)

/-- `end_request`, with what the disk has done. -/
def endRequest (b : Nat) (uptodate : Bool) (data : Nat → UInt8) (C : BufferCache) : BufferCache :=
  C.set b { C.head b with bLock := false, bUptodate := uptodate, bData := data }

/-- What a process that has a reference makes of the buffer. -/
def use (b : Nat) (dirt uptodate lock : Bool) (data : Nat → UInt8) (C : BufferCache) : BufferCache :=
  C.set b { C.head b with bDirt := dirt, bUptodate := uptodate, bLock := lock, bData := data }

end BufferCache

/-- A statement of a call. -/
def Call.run (requestFn : Nat → Bool) (slot : Bool) : Call → BufferCache → Option (Next Call × BufferCache)
  | .getHashTable k p, C =>
    let r := C.getHashTable k p
    some (r.1.map (.getHashTable k), r.2)
  | .getblk k p, C => (C.getblk requestFn slot k p).map fun r => (r.1.map (.getblk k), r.2)
  | .brelse buf, C => (C.brelse buf).map fun r => (r.1.map .brelse, r.2)

/-- How a process calls. -/
inductive Invocation where
  | getHashTable (k : BlockOf)
  | getblk (k : BlockOf)
  | brelse (buf : Option Nat)

def Invocation.start : Invocation → Call
  | .getHashTable k => .getHashTable k .find
  | .getblk k => .getblk k (.table .find)
  | .brelse buf => .brelse buf

structure Sharing (T : Type _) where
  cache : BufferCache
  call : T → Option Call
  /-- The process that has not come to a place where it sleeps. -/
  running : Option T

/-- A process calls, goes on behind a place where it slept, or executes a statement; a request completes; or a
process works with a buffer that is referenced. -/
inductive Event (T : Type _) where
  | invoke (t : T) (i : Invocation)
  | resume (t : T)
  | run (slot : Bool)
  | complete (b : Nat) (uptodate : Bool) (data : Nat → UInt8)
  | use (b : Nat) (dirt uptodate lock : Bool) (data : Nat → UInt8)

namespace Sharing

variable {T : Type _} [DecidableEq T]

/-- What comes of a statement of the call of `t`. -/
def after (t : T) (s : Sharing T) : Next Call × BufferCache → Sharing T
  | (.go c, C) => { s with cache := C, call := Function.update s.call t (some c) }
  | (.sleep c, C) => ⟨C, Function.update s.call t (some c), none⟩
  | (.ret _, C) => ⟨C, Function.update s.call t none, none⟩

def step (requestFn : Nat → Bool) : Event T → Sharing T → Option (Sharing T)
  | .invoke t i, s =>
    if s.running.isNone ∧ (s.call t).isNone then
      some { s with call := Function.update s.call t (some i.start), running := some t }
    else none
  | .resume t, s => if s.running.isNone ∧ (s.call t).isSome then some { s with running := some t } else none
  | .run slot, s =>
    s.running.bind fun t => (s.call t).bind fun c => (c.run requestFn slot s.cache).map (s.after t)
  | .complete b uptodate data, s =>
    if (s.cache.head b).bLock then some { s with cache := s.cache.endRequest b uptodate data } else none
  | .use b dirt uptodate lock data, s =>
    if s.running.isNone ∧ (s.cache.head b).bCount ≠ 0 then
      some { s with cache := s.cache.use b dirt uptodate lock data }
    else none

/-- Nobody has called yet. -/
def quiet (C : BufferCache) : Sharing T := ⟨C, fun _ => none, none⟩

def Step (requestFn : Nat → Bool) (s s' : Sharing T) : Prop := ∃ e, step requestFn e s = some s'

/-- Process `t` is about to give buffer `b` another block. -/
def Reassigns (s : Sharing T) (b : Nat) : Prop := ∃ t k, s.running = some t ∧ s.call t = some (.getblk k (.take b))

end Sharing

/-! ## What a statement does to the buffers -/

namespace BufferCache

/-- The buffers have the blocks that they had, and the queues are as they were. -/
structure Calm (C C' : BufferCache) : Prop where
  nrBuffers : C'.nrBuffers = C.nrBuffers
  dev : ∀ b, (C'.head b).bDev = (C.head b).bDev
  block : ∀ b, (C'.head b).bBlocknr = (C.head b).bBlocknr
  hashed : C'.hashed = C.hashed
  hashTable : C'.hashTable = C.hashTable
  free : C'.free = C.free
  freeList : C'.freeList = C.freeList

variable {C C' : BufferCache} {b : Nat} {k : BlockOf} {requestFn : Nat → Bool} {slot : Bool}

theorem Calm.refl (C : BufferCache) : C.Calm C := ⟨rfl, fun _ => rfl, fun _ => rfl, rfl, rfl, rfl, rfl⟩

theorem calm_set {n : Head} (hdev : n.bDev = (C.head b).bDev) (hblock : n.bBlocknr = (C.head b).bBlocknr) :
    C.Calm (C.set b n) := by
  refine ⟨rfl, fun a => ?_, fun a => ?_, rfl, rfl, rfl, rfl⟩
  · rw [head_set]
    split
    · next heq => rw [heq, hdev]
    · rfl
  · rw [head_set]
    split
    · next heq => rw [heq, hblock]
    · rfl

theorem Ok.calm (h : C.Ok) (hc : C.Calm C') : C'.Ok :=
  h.congr hc.nrBuffers hc.dev hc.block hc.hashed hc.hashTable hc.free hc.freeList

theorem Calm.search (hc : C.Calm C') {dev block fuel : Nat} {a : Option Nat} :
    C'.search dev block fuel a = C.search dev block fuel a := by
  induction fuel generalizing a with
  | zero => rfl
  | succ fuel ih =>
    cases a with
    | none => rfl
    | some tmp =>
      have his : C'.Is tmp dev block ↔ C.Is tmp dev block := by
        unfold Is
        rw [hc.dev, hc.block]
      rw [BufferCache.search, BufferCache.search, ih, hc.hashed]
      simp only [his]

theorem Calm.findBuffer (hc : C.Calm C') {dev block : Nat} : C'.findBuffer dev block = C.findBuffer dev block := by
  unfold BufferCache.findBuffer
  rw [hc.nrBuffers, hc.hashTable]
  exact hc.search

/-- What `getblk` has found out about its choice, and nobody can have changed since. -/
def Ready (C : BufferCache) (k : BlockOf) : GetblkPlace → Prop
  | .table _ | .asleep => True
  | .scan tmp bh => tmp < C.nrBuffers ∧ ∀ b, bh = some b → b < C.nrBuffers
  | .wait b | .sync b _ _ _ | .syncWait b _ _ _ | .syncRequest b _ _ _ => b < C.nrBuffers
  | .count b => b < C.nrBuffers ∧ (C.head b).bLock = false
  | .dirt b => b < C.nrBuffers ∧ (C.head b).bLock = false ∧ (C.head b).bCount = 0
  | .recheck b => b < C.nrBuffers ∧ (C.head b).bLock = false ∧ (C.head b).bCount = 0 ∧ (C.head b).bDirt = false
  | .take b => b < C.nrBuffers ∧ (C.head b).bLock = false ∧ (C.head b).bCount = 0 ∧ (C.head b).bDirt = false ∧
      C.findBuffer k.dev k.block = none

/-- A place where `getblk` sleeps: it relies on nothing but the number of buffers. -/
def Sleeps (C : BufferCache) (k : BlockOf) (p : GetblkPlace) : Prop :=
  ∀ C' : BufferCache, C'.nrBuffers = C.nrBuffers → C'.Ready k p

/-- What a statement of `getblk` leaves to the next one. -/
def Leaves (C : BufferCache) (k : BlockOf) : Next GetblkPlace → Prop
  | .go p => C.Ready k p
  | .sleep p => C.Sleeps k p
  | .ret _ => True

theorem getHashTable_calm (p : TablePlace) : C.Calm (C.getHashTable k p).2 := by
  cases p with
  | find =>
    simp only [getHashTable]
    split
    · exact .refl C
    · exact calm_set rfl rfl
  | wait b =>
    simp only [getHashTable]
    split <;> exact .refl C
  | compare b =>
    simp only [getHashTable]
    split
    · exact .refl C
    · exact calm_set rfl rfl

theorem leaves_picked {bh : Option Nat} (h : ∀ b, bh = some b → b < C.nrBuffers) : C.Leaves k (picked bh) := by
  cases bh with
  | none => exact fun _ _ => trivial
  | some b => exact h b rfl

/-- `get_hash_table`, at the beginning of `getblk`. -/
theorem getblk_table (h : C.Ok) {p : TablePlace} {r : Next GetblkPlace × BufferCache}
    (hr : C.getblk requestFn slot k (.table p) = some r) : C.Calm r.2 ∧ r.2.Leaves k r.1 := by
  have hcalm := C.getHashTable_calm (k := k) p
  simp only [getblk] at hr
  split at hr
  · next heq =>
    cases hr
    rw [heq] at hcalm
    exact ⟨hcalm, trivial⟩
  · next heq =>
    cases hr
    rw [heq] at hcalm
    exact ⟨hcalm, fun _ _ => trivial⟩
  · next heq =>
    cases hr
    rw [heq] at hcalm
    exact ⟨hcalm, trivial⟩
  · next heq =>
    -- the block is not there, and the search through the free list begins
    cases hr
    rw [heq] at hcalm
    exact ⟨hcalm, (h.calm hcalm).free.start, fun b hb => by cases hb⟩

/-- The search through the free list finds buffers only. -/
theorem getblk_scan (h : C.Ok) {tmp : Nat} {bh : Option Nat} (htmp : tmp < C.nrBuffers)
    (hbh : ∀ b, bh = some b → b < C.nrBuffers) {r : Next GetblkPlace × BufferCache}
    (hr : C.getblk requestFn slot k (.scan tmp bh) = some r) : r.2 = C ∧ C.Leaves k r.1 := by
  simp only [getblk] at hr
  split at hr
  · cases hr
    refine ⟨rfl, ?_⟩
    change C.Leaves k (picked (some tmp))
    refine leaves_picked fun b hb => ?_
    cases hb
    exact htmp
  · split at hr
    · cases hr
    · next next hnext =>
      cases hr
      have hbest : ∀ b, (if (C.head tmp).bCount = 0 ∧ (bh.all fun b => decide (C.badness tmp < C.badness b)) = true
          then some tmp else bh) = some b → b < C.nrBuffers := by
        intro b hb
        split at hb
        · cases hb
          exact htmp
        · exact hbh b hb
      obtain ⟨n, hn, hn'⟩ := h.free.next tmp htmp
      rw [hnext] at hn'
      cases hn'
      refine ⟨rfl, ?_⟩
      dsimp only
      split
      · exact leaves_picked hbest
      · exact ⟨hn, hbest⟩

/-- A statement of `getblk` leaves the blocks of the buffers alone, but for the last one. -/
theorem getblk_spec (h : C.Ok) {p : GetblkPlace} (hready : C.Ready k p) {r : Next GetblkPlace × BufferCache}
    (hr : C.getblk requestFn slot k p = some r) :
    (C.Calm r.2 ∨ ∃ b, p = .take b ∧ r.2.Ok ∧ C.Reassigned b k.dev k.block r.2) ∧ r.2.Leaves k r.1 := by
  cases p with
  | table p =>
    obtain ⟨hcalm, hleaves⟩ := getblk_table h hr
    exact ⟨.inl hcalm, hleaves⟩
  | scan tmp bh =>
    obtain ⟨hsame, hleaves⟩ := getblk_scan h hready.1 hready.2 hr
    rw [hsame]
    exact ⟨.inl (.refl C), hleaves⟩
  | asleep =>
    cases hr
    exact ⟨.inl (.refl C), trivial⟩
  | wait b =>
    cases hr
    refine ⟨.inl (.refl C), ?_⟩
    dsimp only
    split
    · exact fun C' hn => Nat.lt_of_lt_of_eq hready hn.symm
    · next hl => exact ⟨hready, Bool.eq_false_iff.mpr hl⟩
  | count b =>
    cases hr
    refine ⟨.inl (.refl C), ?_⟩
    dsimp only
    split
    · exact trivial
    · next hcount => exact ⟨hready.1, hready.2, not_not.mp hcount⟩
  | dirt b =>
    cases hr
    refine ⟨.inl (.refl C), ?_⟩
    dsimp only
    split
    · exact hready.1
    · next hd => exact ⟨hready.1, hready.2.1, hready.2.2, Bool.eq_false_iff.mpr hd⟩
  | sync b dev second i =>
    simp only [getblk] at hr
    split at hr
    · cases hr
      refine ⟨.inl (.refl C), ?_⟩
      dsimp only
      split
      · exact hready
      · exact hready
    · split at hr
      · cases hr
        exact ⟨.inl (.refl C), hready⟩
      · cases hr
        exact ⟨.inl (.refl C), fun C' hn => Nat.lt_of_lt_of_eq hready hn.symm⟩
  | syncWait b dev second i =>
    simp only [getblk] at hr
    split at hr
    · cases hr
      exact ⟨.inl (.refl C), fun C' hn => Nat.lt_of_lt_of_eq hready hn.symm⟩
    · split at hr
      · cases hr
        exact ⟨.inl (calm_set rfl rfl), hready⟩
      · cases hr
        exact ⟨.inl (.refl C), hready⟩
  | syncRequest b dev second i =>
    simp only [getblk] at hr
    split at hr
    · cases hr
      exact ⟨.inl (calm_set rfl rfl), hready⟩
    · cases hr
      exact ⟨.inl (.refl C), fun C' hn => Nat.lt_of_lt_of_eq hready hn.symm⟩
  | recheck b =>
    cases hr
    refine ⟨.inl (.refl C), ?_⟩
    dsimp only
    split
    · exact trivial
    · next hfind =>
      obtain ⟨hb, hl, hcount, hd⟩ := hready
      exact ⟨hb, hl, hcount, hd, Option.not_isSome_iff_eq_none.mp hfind⟩
  | take b =>
    obtain ⟨hb, -, -, -, hfind⟩ := hready
    obtain ⟨C', hre, hok, hhead⟩ := h.reassign hb k.dev_ne hfind
    simp only [getblk] at hr
    rw [hre] at hr
    cases hr
    exact ⟨.inr ⟨b, rfl, hok, hhead⟩, trivial⟩

/-- A request that completes was locked, so `getblk` is not about to reuse its buffer. -/
theorem Ready.endRequest {p : GetblkPlace} (h : C.Ready k p) {a : Nat} {uptodate : Bool} {data : Nat → UInt8}
    (hlock : (C.head a).bLock = true) : (C.endRequest a uptodate data).Ready k p := by
  have hcalm : C.Calm (C.endRequest a uptodate data) := calm_set rfl rfl
  have hhead : ∀ b, (C.head b).bLock = false → (C.endRequest a uptodate data).head b = C.head b := by
    intro b hb
    unfold BufferCache.endRequest
    rw [head_set, if_neg]
    rintro rfl
    rw [hlock] at hb
    cases hb
  cases p with
  | count b => exact ⟨h.1, by rw [hhead b h.2]; exact h.2⟩
  | dirt b => exact ⟨h.1, by rw [hhead b h.2.1]; exact h.2⟩
  | recheck b => exact ⟨h.1, by rw [hhead b h.2.1]; exact h.2⟩
  | take b => exact ⟨h.1, by rw [hhead b h.2.1, hcalm.findBuffer]; exact h.2⟩
  | _ => exact h

end BufferCache

/-! ## Any number of calls -/

/-- What is known where a call stands. -/
def Call.Ready (C : BufferCache) : Call → Prop
  | .getblk k p => C.Ready k p
  | _ => True

namespace Sharing

open BufferCache

variable {T : Type _} [DecidableEq T] {requestFn : Nat → Bool} {s s' : Sharing T}

/-- The queues are in order. The process that runs knows what it has found out, and one that sleeps knows nothing
about the buffers. -/
structure Inv (s : Sharing T) : Prop where
  ok : s.cache.Ok
  running : ∀ t, s.running = some t → ∀ c, s.call t = some c → c.Ready s.cache
  asleep : ∀ t, s.running ≠ some t → ∀ c, s.call t = some c →
    ∀ C : BufferCache, C.nrBuffers = s.cache.nrBuffers → c.Ready C

/-- What a statement of a call leaves. -/
def Left (C : BufferCache) : Next Call → Prop
  | .go c => c.Ready C
  | .sleep c => ∀ C' : BufferCache, C'.nrBuffers = C.nrBuffers → c.Ready C'
  | .ret _ => True

theorem left_of_leaves {C : BufferCache} {k : BlockOf} {r : Next GetblkPlace} (h : C.Leaves k r) :
    Left C (r.map (.getblk k)) := by
  cases r with
  | go p => exact h
  | sleep p => exact h
  | ret bh => trivial

theorem left_map {P : Type} {C : BufferCache} {f : P → Call} (hf : ∀ p C, (f p).Ready C) (r : Next P) :
    Left C (r.map f) := by
  cases r with
  | go p => exact hf p C
  | sleep p => exact fun C' _ => hf p C'
  | ret bh => trivial

/-- A statement of a call changes the block of a buffer only at the end of `getblk`. -/
theorem run_spec {C : BufferCache} {c : Call} {slot : Bool} (h : C.Ok) (hready : c.Ready C)
    {r : Next Call × BufferCache} (hr : c.run requestFn slot C = some r) :
    (C.Calm r.2 ∨ ∃ k b, c = .getblk k (.take b) ∧ r.2.Ok ∧ C.Reassigned b k.dev k.block r.2) ∧ Left r.2 r.1 := by
  cases c with
  | getHashTable k p =>
    cases hr
    exact ⟨.inl (getHashTable_calm p), left_map (f := .getHashTable k) (fun _ _ => trivial) _⟩
  | getblk k p =>
    obtain ⟨r', hr', rfl⟩ := Option.map_eq_some_iff.mp hr
    obtain ⟨hdone, hleft⟩ := getblk_spec h hready hr'
    refine ⟨hdone.imp_right ?_, left_of_leaves hleft⟩
    rintro ⟨b, rfl, hre⟩
    exact ⟨k, b, rfl, hre⟩
  | brelse buf =>
    obtain ⟨r', hr', rfl⟩ := Option.map_eq_some_iff.mp hr
    refine ⟨.inl ?_, left_map (f := .brelse) (fun _ _ => trivial) _⟩
    cases buf with
    | none =>
      cases hr'
      exact .refl C
    | some b =>
      simp only [BufferCache.brelse] at hr'
      split at hr'
      · cases hr'
        exact .refl C
      · split at hr'
        · cases hr'
        · cases hr'
          exact calm_set rfl rfl

/-- A step, as far as the blocks of the buffers go. -/
def Moves (s s' : Sharing T) : Prop :=
  s.cache.Calm s'.cache ∨ ∃ b, s.Reassigns b ∧ ∃ dev block, s.cache.Reassigned b dev block s'.cache

theorem Inv.after (h : s.Inv) {t : T} {C : BufferCache} {r : Next Call} (hok : C.Ok)
    (hn : C.nrBuffers = s.cache.nrBuffers) (hrun : s.running = some t) (hleft : Left C r) :
    (s.after t (r, C)).Inv := by
  -- The others sleep, and go on sleeping.
  have hother : ∀ u, u ≠ t → ∀ o c, Function.update s.call t o u = some c →
      ∀ C' : BufferCache, C'.nrBuffers = C.nrBuffers → c.Ready C' := by
    intro u hu o c hc C' hC'
    rw [Function.update_of_ne hu] at hc
    exact h.asleep u (fun heq => hu (Option.some.inj (heq.symm.trans hrun))) c hc C' (hC'.trans hn)
  cases r with
  | go c =>
    refine ⟨hok, fun u hu c' hc' => ?_, fun u hu => hother u (fun heq => hu (heq ▸ hrun)) _⟩
    obtain rfl : u = t := Option.some.inj (hu.symm.trans hrun)
    change Function.update s.call u (some c) u = some c' at hc'
    rw [Function.update_self] at hc'
    cases hc'
    exact hleft
  | sleep c =>
    refine ⟨hok, fun u hu => (by cases hu), fun u _ c' hc' => ?_⟩
    by_cases hut : u = t
    · change Function.update s.call t (some c) u = some c' at hc'
      rw [hut, Function.update_self] at hc'
      cases hc'
      exact hleft
    · exact hother u hut _ c' hc'
  | ret bh =>
    refine ⟨hok, fun u hu => (by cases hu), fun u _ c' hc' => ?_⟩
    by_cases hut : u = t
    · change Function.update s.call t none u = some c' at hc'
      rw [hut, Function.update_self] at hc'
      cases hc'
    · exact hother u hut _ c' hc'

theorem cache_after (t : T) (r : Next Call × BufferCache) : (s.after t r).cache = r.2 := by
  obtain ⟨r, C⟩ := r
  cases r <;> rfl

/-- Every step keeps the invariant, and gives a buffer another block only where `getblk` ends. -/
theorem Inv.step (h : s.Inv) {e : Event T} (he : step requestFn e s = some s') : s'.Inv ∧ s.Moves s' := by
  cases e with
  | invoke t i =>
    simp only [Sharing.step] at he
    split at he
    · next hfree =>
      cases he
      have hnone : s.running = none := Option.isNone_iff_eq_none.mp hfree.1
      refine ⟨⟨h.ok, fun u hu c hc => ?_, fun u hu c hc => ?_⟩, .inl (.refl _)⟩
      · obtain rfl : t = u := Option.some.inj hu
        change Function.update s.call t (some i.start) t = some c at hc
        rw [Function.update_self] at hc
        cases hc
        cases i <;> trivial
      · have hut : u ≠ t := fun heq => hu (congrArg some heq.symm)
        change Function.update s.call t (some i.start) u = some c at hc
        rw [Function.update_of_ne hut] at hc
        exact h.asleep u (by rw [hnone]; nofun) c hc
    · cases he
  | resume t =>
    simp only [Sharing.step] at he
    split at he
    · next hfree =>
      cases he
      have hnone : s.running = none := Option.isNone_iff_eq_none.mp hfree.1
      have hall : ∀ u c, s.call u = some c → ∀ C : BufferCache, C.nrBuffers = s.cache.nrBuffers → c.Ready C :=
        fun u c hc => h.asleep u (by rw [hnone]; nofun) c hc
      exact ⟨⟨h.ok, fun u _ c hc => hall u c hc _ rfl, fun u _ => hall u⟩, .inl (.refl _)⟩
    · cases he
  | run slot =>
    obtain ⟨t, ht, he⟩ := Option.bind_eq_some_iff.mp he
    obtain ⟨c, hc, he⟩ := Option.bind_eq_some_iff.mp he
    obtain ⟨r, hr, rfl⟩ := Option.map_eq_some_iff.mp he
    obtain ⟨hdone, hleft⟩ := run_spec h.ok (h.running t ht c hc) hr
    unfold Moves
    rw [cache_after]
    rcases hdone with hcalm | ⟨k, b, rfl, hok, hre⟩
    · exact ⟨h.after (h.ok.calm hcalm) hcalm.nrBuffers ht hleft, .inl hcalm⟩
    · exact ⟨h.after hok hre.nrBuffers ht hleft, .inr ⟨b, ⟨t, k, ht, hc⟩, k.dev, k.block, hre⟩⟩
  | complete b uptodate data =>
    simp only [Sharing.step] at he
    split at he
    · next hlock =>
      cases he
      have hcalm : s.cache.Calm (s.cache.endRequest b uptodate data) := calm_set rfl rfl
      refine ⟨⟨h.ok.calm hcalm, fun t ht c hc => ?_, fun t ht c hc C hn => ?_⟩, .inl hcalm⟩
      · have hready := h.running t ht c hc
        cases c with
        | getblk k p => exact BufferCache.Ready.endRequest hready hlock
        | _ => trivial
      · exact h.asleep t ht c hc C hn
    · cases he
  | use b dirt uptodate lock data =>
    -- the calls that sleep rely on nothing that a user writes to a head
    simp only [Sharing.step] at he
    split at he
    · next hfree =>
      cases he
      have hnone : s.running = none := Option.isNone_iff_eq_none.mp hfree.1
      have hcalm : s.cache.Calm (s.cache.use b dirt uptodate lock data) := calm_set rfl rfl
      refine ⟨⟨h.ok.calm hcalm, fun t ht => ?_, h.asleep⟩, .inl hcalm⟩
      change s.running = some t at ht
      rw [hnone] at ht
      cases ht
    · cases he

omit [DecidableEq T] in
theorem inv_quiet {C : BufferCache} (h : C.Ok) : (quiet C : Sharing T).Inv where
  ok := h
  running t ht := by cases ht
  asleep t _ c hc := by cases hc

/-- A block is in one buffer at most, a buffer that is referenced keeps its block, and one that gets another block
is not referenced, not locked and not dirty. -/
structure Coherent (requestFn : Nat → Bool) (s : Sharing T) : Prop where
  distinct : s.cache.Distinct
  held : ∀ s', Step requestFn s s' → ∀ b, 0 < (s.cache.head b).bCount →
    (s'.cache.head b).bDev = (s.cache.head b).bDev ∧ (s'.cache.head b).bBlocknr = (s.cache.head b).bBlocknr
  moved : ∀ s', Step requestFn s s' → ∀ b, ¬ ((s'.cache.head b).bDev = (s.cache.head b).bDev ∧
    (s'.cache.head b).bBlocknr = (s.cache.head b).bBlocknr) → s.Reassigns b
  free : ∀ b, s.Reassigns b →
    (s.cache.head b).bCount = 0 ∧ (s.cache.head b).bLock = false ∧ (s.cache.head b).bDirt = false

omit [DecidableEq T] in
theorem Inv.free (h : s.Inv) {b : Nat} (hb : s.Reassigns b) :
    (s.cache.head b).bCount = 0 ∧ (s.cache.head b).bLock = false ∧ (s.cache.head b).bDirt = false := by
  obtain ⟨t, k, ht, hc⟩ := hb
  obtain ⟨-, hlock, hcount, hdirt, -⟩ := h.running t ht _ hc
  exact ⟨hcount, hlock, hdirt⟩

theorem Inv.moved (h : s.Inv) (hstep : Step requestFn s s') {b : Nat}
    (hne : ¬ ((s'.cache.head b).bDev = (s.cache.head b).bDev ∧
      (s'.cache.head b).bBlocknr = (s.cache.head b).bBlocknr)) : s.Reassigns b := by
  obtain ⟨e, he⟩ := hstep
  rcases (h.step he).2 with hcalm | ⟨a, ha, dev, block, hre⟩
  · exact absurd ⟨hcalm.dev b, hcalm.block b⟩ hne
  · by_cases hab : b = a
    · exact hab ▸ ha
    · rw [hre.head, if_neg hab] at hne
      exact absurd ⟨rfl, rfl⟩ hne

/-- Whatever calls of `getblk`, `get_hash_table` and `brelse` there are, and however they are interleaved. -/
theorem buffers_coherent {n : Nat} {blocknr : Nat → Nat} {data : Nat → Nat → UInt8}
    (hrun : Relation.ReflTransGen (Step requestFn) (quiet (bufferInit n blocknr data)) s) :
    s.Coherent requestFn := by
  have hinv : s.Inv := by
    refine Lib.invariant_of_run (I := Inv) (fun s s' h hstep => ?_) (inv_quiet (bufferInit_ok n blocknr data)) hrun
    obtain ⟨e, he⟩ := hstep
    exact (h.step he).1
  refine ⟨hinv.ok.distinct, fun s' hstep b hcount => ?_, fun s' hstep b => hinv.moved hstep, fun b => hinv.free⟩
  by_contra hne
  have hzero := (hinv.free (hinv.moved hstep hne)).1
  omega

/-- The events of `es`, one after the other. -/
def exec (requestFn : Nat → Bool) (es : List (Event T)) (s : Sharing T) : Option (Sharing T) :=
  es.foldlM (fun s e => step requestFn e s) s

theorem exec_run {es : List (Event T)} (h : exec requestFn es s = some s') :
    Relation.ReflTransGen (Step requestFn) s s' := by
  induction es generalizing s with
  | nil =>
    cases h
    exact .refl
  | cons e es ih =>
    obtain ⟨s₁, he, hrest⟩ := Option.bind_eq_some_iff.mp h
    exact .head ⟨e, he⟩ (ih hrest)

def seven : BlockOf := ⟨0x301, 7, by decide, by decide⟩

def eight : BlockOf := ⟨0x301, 8, by decide, by decide⟩

/-- Two processes and one buffer. Process `false` gets block 7, writes into it and releases it, and process `true`,
which waits for a buffer, has to write it back. Meanwhile process `false` takes the buffer once more. -/
def contest : List (Event Bool) :=
  [.invoke false (.getblk seven)] ++ List.replicate 7 (.run true) ++ [.use 0 true true false fun _ => 1] ++
  [.invoke true (.getblk eight)] ++ List.replicate 2 (.run true) ++
  [.invoke false (.brelse (some 0)), .run true, .resume true] ++ List.replicate 10 (.run true) ++
  [.invoke false (.getHashTable seven), .run true, .run true, .complete 0 true fun _ => 1, .resume true] ++
  List.replicate 7 (.run true) ++
  [.resume false, .run true, .run true, .invoke false (.brelse (some 0)), .run true, .resume true] ++
  List.replicate 7 (.run true)

def oneBuffer : BufferCache := bufferInit 0 (fun _ => 0) fun _ _ => 0

/-- At the end of it, process `true` gives the buffer to block 8. -/
theorem buffers_coherent_contest : ∃ s : Sharing Bool, exec Heads.onlyHd contest (quiet oneBuffer) = some s ∧
    s.Reassigns 0 ∧ s.Coherent Heads.onlyHd := by
  have hend : ((exec Heads.onlyHd contest (quiet oneBuffer)).any fun s =>
      decide (s.running = some true ∧ s.call true = some (.getblk eight (.take 0)))) = true := by
    decide +kernel
  obtain ⟨s, hs, hcall⟩ := (Option.any_eq_true _ _).mp hend
  obtain ⟨hrunning, hcall⟩ := of_decide_eq_true hcall
  exact ⟨s, hs, ⟨true, eight, hrunning, hcall⟩, buffers_coherent (exec_run hs)⟩

end Sharing

end Linux011.Fs
