import Linux011.Lib.Transfer
import Linux011.Path.Open

/-!
# References to inodes and buffers

The books of a call: `i_count` of every inode, and `b_count` of every buffer. What is said of the buffers
depends on the turns of the call so far, so it is a relation `K` between the log, the counts and the
references there should be. `Watch` lists what such a relation has to allow for: buffers are gained and
released, and in the turns that are not safe one is kept or released once too often. A call that follows a
`NULL` buffer has taken a turn that is not safe.
-/

namespace Linux011.Path

open Linux011.Fs Linux011.Lib

abbrev Key := Nat × Nat

/-- What a reference is to. -/
inductive Ref where
  | inode (i : Nat)
  | buffer (dev block : Nat)
deriving DecidableEq

namespace State

/-- `b_count` of the buffers. -/
def bufs (s : State) (k : Key) : Nat := (s.cache k.1).held k.2

/-- `bread` of the block succeeds. -/
def Readable (s : State) (dev block : Nat) : Prop :=
  ((s.cache dev).head block).uptodate = true ∨ (s.cache dev).works block = true

end State

/-- The turns that keep the buffers in order, in the state before the turn. -/
def Turn.Safe (s : State) : Turn → Prop
  | .release _ _ => True
  | .next dev block left => left ≤ 64 ∨ block ≠ 0 ∧ s.Readable dev block
  | .grow dev block => s.Readable dev block
  | .header dev i block => goodHeader (s.inode i).iNum ((s.cache dev).head block).data = true
  | .further block => block ≠ 0
  | .free dev k block =>
    s.bufs (dev, block) = 0 ∧
      (block + 1 - (s.superBlock k).sFirstdatazone) / 8192 < (s.superBlock k).sZmapBlocks

abbrev Log := List (Turn × State)

def Log.Safe (L : Log) : Prop := ∀ e ∈ L, e.1.Safe e.2

/-- The references to buffers among `r`. -/
def bufRefs (r : Ref → Nat) (k : Key) : Nat := r (.buffer k.1 k.2)

structure Watch (K : Log → (Key → Nat) → (Key → Nat) → Prop) (floor : Ref → Nat) : Prop where
  gain : ∀ L c r k, K L c r → K L (c + ref k) (r + ref k)
  loss : ∀ L s r dev block, bufRefs floor ≤ r → K L (State.bufs s) (r + ref (dev, block)) →
    s.bufs (dev, block) ≠ 0 → K (L ++ [(.release dev block, s)]) (s.bufs - ref (dev, block)) r
  turn : ∀ L s r t, K L (State.bufs s) r → (∀ dev block, t ≠ .release dev block) → t.Safe s →
    K (L ++ [(t, s)]) s.bufs r
  leak : ∀ L s r dev k block, K L (State.bufs s) r → s.bufs (dev, block) ≠ 0 →
    K (L ++ [(.free dev k block, s)]) (s.bufs + ref (dev, block)) r
  header : ∀ L s r dev i block, K L (State.bufs s) (r + ref (dev, block)) →
    ¬ Turn.Safe s (.header dev i block) → K (L ++ [(.header dev i block, s)]) s.bufs r
  again : ∀ L s r dev block, K L (State.bufs s) r → s.bufs (dev, block) ≠ 0 →
    K (L ++ [(.further 0, s)] ++ [(.release dev block, s)]) (s.bufs - ref (dev, block)) r

/-- The turns that are not about a buffer at hand. -/
def Turn.Plain : Turn → Prop
  | .next .. | .grow .. | .free .. => True
  | .release .. | .header .. | .further .. => False

/-- What a relation has to allow for in the calls that do not look into a directory to see if it is empty. -/
structure Tally (K : Log → (Key → Nat) → (Key → Nat) → Prop) (floor : Ref → Nat) : Prop where
  gain : ∀ L c r k, K L c r → K L (c + ref k) (r + ref k)
  loss : ∀ L s r dev block, bufRefs floor ≤ r → K L (State.bufs s) (r + ref (dev, block)) →
    s.bufs (dev, block) ≠ 0 → K (L ++ [(.release dev block, s)]) (s.bufs - ref (dev, block)) r
  turn : ∀ L s r t, K L (State.bufs s) r → t.Plain → t.Safe s → K (L ++ [(t, s)]) s.bufs r
  leak : ∀ L s r dev k block, K L (State.bufs s) r → s.bufs (dev, block) ≠ 0 →
    K (L ++ [(.free dev k block, s)]) (s.bufs + ref (dev, block)) r

theorem Watch.tally {K : Log → (Key → Nat) → (Key → Nat) → Prop} {floor : Ref → Nat} (W : Watch K floor) :
    Tally K floor where
  gain := W.gain
  loss := W.loss
  turn := fun L s r t hk ht => W.turn L s r t hk fun dev block heq => by
    rw [heq] at ht
    exact ht
  leak := W.leak

/-- The text of the panic that a missing reference leads to. -/
def tryingToFree : String := "iput: trying to free free inode"

/-- The text of the panic of `brelse`. -/
def freeBuffer : String := "Trying to free free buffer"

/-- A turn was not safe, or the reference to a buffer that is there by the books is missing. -/
def Missing (K : Log → (Key → Nat) → (Key → Nat) → Prop) (floor : Ref → Nat) (L : Log) : Prop :=
  ¬ L.Safe ∨ ∃ L' s r dev block, bufRefs floor ≤ r ∧ K L' (State.bufs s) (r + ref (dev, block)) ∧
    s.bufs (dev, block) = 0 ∧ L = L' ++ [(.release dev block, s)]

/-- What can be said when a call stops. -/
structure Stopped (K : Log → (Key → Nat) → (Key → Nat) → Prop) (floor : Ref → Nat) (e : Stop) (m : Machine) :
    Prop where
  inode : e ≠ .panic tryingToFree
  null : e = .nullBuffer → ¬ Log.Safe m.log
  buffer : e = .panic freeBuffer → Missing K floor m.log

/-- The process and its open files are `T` and `F`, and the counts are `r`. -/
structure Balanced (K : Log → (Key → Nat) → (Key → Nat) → Prop) (T : Task) (F : Nat → File Nat)
    (r : Ref → Nat) (m : Machine) : Prop where
  current : m.state.current = T
  file : m.state.file = F
  inodes : ∀ i, (m.state.inode i).iCount = r (.inode i)
  buffers : K m.log m.state.bufs (bufRefs r)

def ledger (K : Log → (Key → Nat) → (Key → Nat) → Prop) (floor : Ref → Nat) (T : Task)
    (F : Nat → File Nat) : Books Stop Machine Ref :=
  ⟨Balanced K T F, Stopped K floor, floor⟩

/-- A reference that may be missing. -/
def optRef : Option Nat → Ref → Nat
  | none => 0
  | some i => ref (.inode i)

def bufRef (got : Bool) (dev block : Nat) : Ref → Nat := if got then ref (.buffer dev block) else 0

variable {α β : Type} {K : Log → (Key → Nat) → (Key → Nat) → Prop} {floor : Ref → Nat} {T : Task}
  {F : Nat → File Nat} {inp : Ref → Nat} {out : α → Ref → Nat} {m : Machine}

@[simp] theorem ref_apply {ι : Type} [DecidableEq ι] (a b : ι) : ref a b = if b = a then 1 else 0 :=
  Pi.single_apply a 1 b

theorem bufRefs_add (r r' : Ref → Nat) : bufRefs (r + r') = bufRefs r + bufRefs r' := rfl

@[simp] theorem bufRefs_inode (i : Nat) : bufRefs (ref (.inode i)) = 0 := by
  funext k
  rw [bufRefs, ref_apply, if_neg (fun heq => by cases heq)]
  rfl

@[simp] theorem bufRefs_buffer (dev block : Nat) : bufRefs (ref (.buffer dev block)) = ref (dev, block) := by
  funext k
  obtain ⟨dev', block'⟩ := k
  simp [bufRefs]

/-! ## Parts of the state -/

theorem not_safe_snoc {L : Log} {s : State} {t : Turn} (h : ¬ t.Safe s) : ¬ Log.Safe (L ++ [(t, s)]) :=
  fun hL => h (hL (t, s) (List.mem_append_right _ (List.mem_singleton.mpr rfl)))

theorem moves_look {g : State → α} {f : α → Call β} {out : β → Ref → Nat}
    (h : ∀ a, Moves (ledger K floor T F) inp (f a) out) :
    Moves (ledger K floor T F) inp (look g >>= f) out :=
  Moves.read (g := fun m => g m.state) (fun _ => rfl) h

/-- Reading the state, when the value that is read matters. -/
theorem spec_look {P : Machine → Prop} {g : State → α} {f : α → Call β} {out : β → Ref → Nat}
    {R : β → Machine → Prop}
    (h : ∀ a, Spec (ledger K floor T F) (fun m => P m ∧ g m.state = a) inp (f a) out R) :
    Spec (ledger K floor T F) P inp (look g >>= f) out R :=
  Spec.known (g := fun m => g m.state) (fun _ => rfl) h

theorem moves_known {g : State → α} {f : α → Call β} {out : β → Ref → Nat}
    (h : ∀ a, Spec (ledger K floor T F) (fun m => g m.state = a) inp (f a) out fun _ _ => True) :
    Moves (ledger K floor T F) inp (look g >>= f) out :=
  spec_look fun a => (h a).conseq (fun _ h => h.2) fun _ _ => id

theorem spec_kpanic {text : String} {P : Machine → Prop} {Q : α → Machine → Prop}
    (h : text ≠ tryingToFree ∧ text ≠ freeBuffer) :
    Spec (ledger K floor T F) P inp (kpanic text : Call α) out Q :=
  Spec.stop fun _ _ _ _ => ⟨fun heq => h.1 (Stop.panic.inj heq), fun heq => (by cases heq),
    fun heq => absurd (Stop.panic.inj heq) h.2⟩

theorem moves_kpanic {text : String} (h : text ≠ tryingToFree ∧ text ≠ freeBuffer) :
    Moves (ledger K floor T F) inp (kpanic text : Call α) out := spec_kpanic h

theorem spec_stop {e : Stop} {P : Machine → Prop} {Q : α → Machine → Prop}
    (h : e = .hang ∨ e = .nullSuper) :
    Spec (ledger K floor T F) P inp (throw e : Call α) out Q := by
  refine Spec.stop fun _ _ _ _ => ?_
  rcases h with rfl | rfl
  · exact ⟨fun heq => (by cases heq), fun heq => (by cases heq), fun heq => (by cases heq)⟩
  · exact ⟨fun heq => (by cases heq), fun heq => (by cases heq), fun heq => (by cases heq)⟩

theorem moves_stop {e : Stop} (h : e = .hang ∨ e = .nullSuper) :
    Moves (ledger K floor T F) inp (throw e : Call α) out := spec_stop h

/-- A change that leaves the process, its files and all counts alone. -/
theorem moves_alter {g : State → State} (hT : ∀ s, (g s).current = s.current)
    (hF : ∀ s, (g s).file = s.file) (hcount : ∀ s i, ((g s).inode i).iCount = (s.inode i).iCount)
    (hbufs : ∀ s, (g s).bufs = s.bufs) : Moves (ledger K floor T F) 0 (alter g) fun _ => 0 := by
  refine Moves.keep fun r m hm => ?_
  obtain ⟨h1, h2, h3, h4⟩ := hm
  refine ⟨(hT _).trans h1, (hF _).trans h2, fun i => (hcount _ i).trans (h3 i), ?_⟩
  show K m.log (g m.state).bufs (bufRefs r)
  rw [hbufs]
  exact h4

theorem moves_setInode {i : Nat} {g : MInode → MInode} (h : ∀ n, (g n).iCount = n.iCount) :
    Moves (ledger K floor T F) 0 (setInode i g) fun _ => 0 := by
  refine moves_alter (fun _ => rfl) (fun _ => rfl) (fun s j => ?_) fun _ => rfl
  show (Function.update s.inode i (g (s.inode i)) j).iCount = (s.inode j).iCount
  rcases eq_or_ne j i with rfl | hne
  · rw [Function.update_self, h]
  · rw [Function.update_of_ne hne]

theorem moves_setSuper {k : Nat} {g : SuperBlock → SuperBlock} :
    Moves (ledger K floor T F) 0 (setSuper k g) fun _ => 0 :=
  moves_alter (fun _ => rfl) (fun _ => rfl) (fun _ _ => rfl) fun _ => rfl

theorem skip_setInode {i : Nat} {g : MInode → MInode} {f : Unit → Call β} {out : β → Ref → Nat}
    (h : ∀ n, (g n).iCount = n.iCount) (hf : ∀ a, Moves (ledger K floor T F) inp (f a) out) :
    Moves (ledger K floor T F) inp (setInode i g >>= f) out :=
  (moves_setInode h).skip hf

/-- The count of an inode changes as the references to it do. -/
theorem spec_setInode {i : Nat} {g : MInode → MInode} (out : Ref → Nat) {P : Machine → Prop}
    (hother : ∀ ref, ref ≠ .inode i → out ref = inp ref)
    (hcount : ∀ m r, P m → (m.state.inode i).iCount = r + inp (.inode i) →
      (g (m.state.inode i)).iCount = r + out (.inode i)) :
    Spec (ledger K floor T F) P inp (setInode i g) (fun _ => out)
      fun _ m => ∃ n, P n ∧ m.state.inode i = g (n.state.inode i) := by
  refine Spec.change ?_
  rintro r m - hP ⟨hT, hF, hinodes, hbufs⟩
  refine ⟨⟨m, hP, Function.update_self ..⟩, hT, hF, fun j => ?_, ?_⟩
  · show (Function.update m.state.inode i (g (m.state.inode i)) j).iCount = _
    rcases eq_or_ne j i with rfl | hne
    · rw [Function.update_self]
      exact hcount m _ hP (hinodes j)
    · rw [Function.update_of_ne hne]
      show _ = r (.inode j) + out (.inode j)
      rw [hother (.inode j) fun heq => hne (Ref.inode.inj heq)]
      exact hinodes j
  · have hsame : bufRefs (r + out) = bufRefs (r + inp) :=
      funext fun k => congrArg (r (.buffer k.1 k.2) + ·)
        (hother (.buffer k.1 k.2) fun heq => by cases heq)
    show K m.log m.state.bufs (bufRefs (r + out))
    rw [hsame]
    exact hbufs

/-- A call that takes nothing and gives nothing leaves the count of every inode as it is. -/
theorem Moves.count {x : Call α} {i : Nat} (p : Nat → Prop)
    (h : Moves (ledger K floor T F) 0 x fun _ => 0) :
    Spec (ledger K floor T F) (fun m => p (m.state.inode i).iCount) 0 x (fun _ => 0)
      fun _ m => p (m.state.inode i).iCount := by
  intro r hr m hp hinv
  have hx := h r hr m trivial hinv
  revert hx
  cases x m with
  | ok a m' =>
    rintro ⟨-, hinv'⟩
    refine ⟨?_, hinv'⟩
    have hsame : (m'.state.inode i).iCount = (m.state.inode i).iCount :=
      (hinv'.inodes i).trans (hinv.inodes i).symm
    show p (m'.state.inode i).iCount
    rw [hsame]
    exact hp
  | error e m' => exact id

/-! ## Buffers -/

/-- The cache of a device is replaced. -/
def Machine.setCache (dev : Nat) (c : Cache) (m : Machine) : Machine :=
  { m with state := { m.state with cache := Function.update m.state.cache dev c } }

theorem bufs_setCache (dev : Nat) (c : Cache) (k : Key) :
    (m.setCache dev c).state.bufs k = if k.1 = dev then c.held k.2 else m.state.bufs k := by
  show (Function.update m.state.cache dev c k.1).held k.2 = _
  split
  · next heq => rw [heq, Function.update_self]
  · next hne =>
    rw [Function.update_of_ne hne]
    rfl

theorem bufs_same {dev : Nat} {c : Cache} (h : c.held = (m.state.cache dev).held) :
    (m.setCache dev c).state.bufs = m.state.bufs := by
  funext k
  rw [bufs_setCache]
  split
  · next heq => rw [h, ← heq]; rfl
  · rfl

theorem bufs_gain {dev block : Nat} {c : Cache}
    (h : c.held = Function.update (m.state.cache dev).held block ((m.state.cache dev).held block + 1)) :
    (m.setCache dev c).state.bufs = m.state.bufs + ref (dev, block) := by
  funext ⟨dev', block'⟩
  rw [bufs_setCache, Pi.add_apply, ref_apply, h]
  grind [State.bufs, Function.update_apply]

theorem bufs_loss {dev block : Nat} {c : Cache}
    (h : c.held = Function.update (m.state.cache dev).held block ((m.state.cache dev).held block - 1)) :
    (m.setCache dev c).state.bufs = m.state.bufs - ref (dev, block) := by
  funext ⟨dev', block'⟩
  rw [bufs_setCache, Pi.sub_apply, ref_apply, h]
  grind [State.bufs, Function.update_apply]

/-- A cache is replaced, and its counts change as the references do. -/
theorem spec_setCache {dev : Nat} {c : Cache} (out : Ref → Nat) {P Q : Machine → Prop}
    (hother : ∀ i, out (.inode i) = inp (.inode i))
    (hbufs : ∀ m r, P m → bufRefs floor ≤ r → K m.log m.state.bufs (r + bufRefs inp) →
      K m.log (m.setCache dev c).state.bufs (r + bufRefs out))
    (hQ : ∀ m, P m → Q (m.setCache dev c)) :
    Spec (ledger K floor T F) P inp (setCache dev c) (fun _ => out) fun _ => Q := by
  refine Spec.change ?_
  rintro r m hfloor hP ⟨hT, hF, hinodes, hk⟩
  refine ⟨hQ m hP, hT, hF, fun i => ?_, hbufs m _ hP (fun k => hfloor _) hk⟩
  show _ = r (.inode i) + out (.inode i)
  rw [hother]
  exact hinodes i

/-- The counts of the cache stay. -/
theorem moves_setCache {dev : Nat} {c' : Cache → Cache} (hheld : ∀ c, (c' c).held = c.held) :
    Moves (ledger K floor T F) 0 (do
      let c ← look fun s => s.cache dev
      setCache dev (c' c)) fun _ => 0 := by
  refine moves_known fun c => spec_setCache 0 (fun _ => rfl) (fun m r hm _ hk => ?_) fun _ _ => trivial
  rw [bufs_same (by rw [hheld, hm])]
  exact hk

theorem bread_got {c c' : Cache} {b : Nat} {got : Bool} (h : c.bread b = .ok (got, c')) :
    got = true ↔ (c.head b).uptodate = true ∨ c.works b = true := by
  have hup : ((c.getblk b).head b).uptodate = (c.head b).uptodate := by
    rw [Cache.getblk_eq, Cache.head_set_self]
  have hworks : (c.getblk b).works b = c.works b := by rw [(Cache.same_getblk b).works]
  constructor
  · rintro rfl
    by_contra hnot
    rw [not_or, Bool.not_eq_true, Bool.not_eq_true] at hnot
    have hfail : ((c.getblk b).llRwBlock .read b).head b = { (c.getblk b).head b with dirt := false } := by
      simp [Cache.llRwBlock, hup, hworks, hnot.1, hnot.2]
    rw [Cache.bread] at h
    simp only [hup, hnot.1, hfail, Bool.false_eq_true, if_false] at h
    cases hrel : ((c.getblk b).llRwBlock .read b).brelse b with
    | ok c'' =>
      rw [hrel] at h
      cases h
    | error text =>
      rw [hrel] at h
      cases h
  · intro hread
    rcases (Cache.bread_spec b c).of_ok _ h with ⟨-, ⟨hgot, -⟩ | ⟨rfl, hfail, -⟩⟩
    · exact hgot
    · rcases hread with hread | hread
      · rw [Cache.bread] at h
        simp only [hup, hread, if_true] at h
        cases h
      · rw [hfail] at hread
        cases hread

/-- `bread` of a block that cannot be read. -/
theorem bread_fails {dev block : Nat} (h : ¬ m.state.Readable dev block) :
    ∃ c, bread dev block m = .ok false (m.setCache dev c) := by
  have hread := Cache.bread_spec block (m.state.cache dev)
  cases hc : (m.state.cache dev).bread block with
  | error text => exact (hread.of_error text hc).elim
  | ok res =>
    obtain ⟨got, c⟩ := res
    have hgot : got = false := Bool.eq_false_iff.mpr fun hgot => h ((bread_got hc).mp hgot)
    refine ⟨c, ?_⟩
    show (onCache dev ((m.state.cache dev).bread block) : Call Bool) m = _
    rw [hc, hgot]
    rfl

/-- What a replaced cache leaves of a machine. -/
def Behind (P : Machine → Prop) (dev : Nat) (m : Machine) : Prop := ∃ m₀ c, P m₀ ∧ m = m₀.setCache dev c

section

variable (W : Tally K floor)

include W

/-- `bread` gives a reference, or the block cannot be read. -/
theorem spec_bread {P : Machine → Prop} (dev block : Nat) :
    Spec (ledger K floor T F) P 0 (bread dev block) (fun got => bufRef got dev block)
      fun got => Behind (fun m => P m ∧ (got = false → ¬ m.state.Readable dev block)) dev := by
  refine spec_look fun c => ?_
  have hread := Cache.bread_spec block c
  cases hc : c.bread block with
  | error text => exact (hread.of_error text hc).elim
  | ok res =>
    obtain ⟨got, c'⟩ := res
    obtain ⟨-, hheld⟩ := hread.of_ok _ hc
    refine Spec.bind (Q := fun _ => Behind (fun m => P m ∧ (got = false → ¬ m.state.Readable dev block)) dev)
      (spec_setCache (bufRef got dev block) ?_ ?_ ?_) fun _ => Spec.ret (fun _ => id) rfl
    · intro i
      unfold bufRef
      split
      · rw [ref_apply, if_neg (fun heq => by cases heq)]
        rfl
      · rfl
    · rintro m r ⟨-, hm⟩ - hk
      rcases hheld with ⟨rfl, -, hheld⟩ | ⟨rfl, -, hheld⟩
      · rw [bufs_gain (by rw [hm]; exact hheld)]
        show K _ _ (r + bufRefs (ref (.buffer dev block)))
        rw [bufRefs_buffer]
        exact W.gain _ _ _ _ hk
      · rw [bufs_same (by rw [hm]; exact hheld)]
        exact hk
    · rintro m ⟨hP, hm⟩
      refine ⟨m, c', ⟨hP, fun hgot hreadable => ?_⟩, rfl⟩
      rw [State.Readable, hm, ← bread_got hc, hgot] at hreadable
      cases hreadable

theorem moves_bread (dev block : Nat) :
    Moves (ledger K floor T F) 0 (bread dev block) fun got => bufRef got dev block :=
  Moves.of_spec (spec_bread W dev block)

/-- `if (bh=bread(dev,block))` -/
theorem moves_got {dev block : Nat} {x y : Call α} {inp' : Ref → Nat}
    (hinp : ref (.buffer dev block) + inp = inp') (hx : Moves (ledger K floor T F) inp' x out)
    (hy : Moves (ledger K floor T F) inp y out) :
    Moves (ledger K floor T F) inp
      (bread dev block >>= fun got => if got = true then x else y) out := by
  refine (moves_bread W dev block).take fun got => ?_
  cases got with
  | true =>
    rw [if_pos rfl, bufRef, if_pos rfl, hinp]
    exact hx
  | false =>
    rw [if_neg (by decide), bufRef, if_neg (by decide), zero_add]
    exact hy

omit W in
theorem moves_write (dev block : Nat) (f : (Nat → UInt8) → Nat → UInt8) :
    Moves (ledger K floor T F) 0 (write dev block f) fun _ => 0 :=
  moves_setCache fun c => (Cache.set_held _).trans (Function.update_eq_self block c.held)

omit W in
/-- What `brelse` does: it counts down, or panics. -/
theorem brelse_eq (dev block : Nat) (m : Machine) :
    (m.state.bufs (dev, block) = 0 ∧ brelse dev block m =
        .error (.panic freeBuffer) { m with log := m.log ++ [(.release dev block, m.state)] }) ∨
      (m.state.bufs (dev, block) ≠ 0 ∧ ∃ c : Cache,
        c.held = Function.update (m.state.cache dev).held block ((m.state.cache dev).held block - 1) ∧
        brelse dev block m = .ok ()
          { m.setCache dev c with log := m.log ++ [(.release dev block, m.state)] }) := by
  have hrun : brelse dev block m = (onCache dev (((m.state.cache dev).brelse block).map fun c => ((), c)) :
      Call Unit) { m with log := m.log ++ [(.release dev block, m.state)] } := rfl
  rw [hrun, Cache.brelse]
  by_cases hzero : ((m.state.cache dev).head block).count = 0
  · rw [if_pos hzero]
    exact Or.inl ⟨hzero, rfl⟩
  · rw [if_neg hzero]
    exact Or.inr ⟨hzero, _, Cache.set_held _, rfl⟩

theorem moves_brelse (dev block : Nat) :
    Moves (ledger K floor T F) (ref (.buffer dev block)) (brelse dev block) fun _ => 0 := by
  rintro r hr m - ⟨hT, hF, hinodes, hk⟩
  rcases brelse_eq dev block m with ⟨hzero, hrun⟩ | ⟨hne, c, hheld, hrun⟩
  · rw [hrun]
    rw [bufRefs_add, bufRefs_buffer] at hk
    exact ⟨by decide, fun heq => (by cases heq),
      fun _ => Or.inr ⟨_, _, bufRefs r, _, _, fun k => hr _, hk, hzero, rfl⟩⟩
  · rw [hrun]
    refine ⟨trivial, hT, hF, fun i => ?_, ?_⟩
    · have hi := hinodes i
      rw [Pi.add_apply, ref_apply, if_neg (fun heq => by cases heq)] at hi
      exact hi
    · show K _ (m.setCache dev c).state.bufs (bufRefs r)
      rw [bufs_loss hheld]
      rw [bufRefs_add, bufRefs_buffer] at hk
      exact W.loss _ _ _ _ _ (fun k => hr _) hk hne

/-- A turn after which the call goes on if it was safe, and follows a `NULL` buffer if not. -/
theorem moves_turn {t : Turn} {f : Unit → Call α} (hplain : t.Plain)
    (hsafe : Spec (ledger K floor T F) (fun m => t.Safe m.state) inp (f ()) out fun _ _ => True)
    (hbad : ∀ m, ¬ t.Safe m.state → ∃ m' : Machine, m'.log = m.log ∧ f () m = .error .nullBuffer m') :
    Moves (ledger K floor T F) inp (mark t >>= f) out := by
  rintro r hr m - ⟨hT, hF, hinodes, hk⟩
  by_cases ht : t.Safe m.state
  · exact hsafe r hr { m with log := m.log ++ [(t, m.state)] } ht
      ⟨hT, hF, hinodes, W.turn _ _ _ _ hk hplain ht⟩
  · obtain ⟨m', hm', hstop⟩ := hbad { m with log := m.log ++ [(t, m.state)] } ht
    have hrun : (mark t >>= f) m = f () { m with log := m.log ++ [(t, m.state)] } := rfl
    rw [hrun, hstop]
    refine ⟨fun heq => (by cases heq), fun _ => ?_, fun heq => (by cases heq)⟩
    rw [hm']
    exact not_safe_snoc ht

end

end Linux011.Path
