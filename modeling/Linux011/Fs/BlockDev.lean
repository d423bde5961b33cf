import Mathlib.Data.List.Basic
import Mathlib.Data.List.GetD
import Linux011.Fs.Buffer
import Linux011.Lib.Run

/-!
# fs/block_dev.c

`block_write` and `block_read` on a device whose requests succeed. A call is a loop over blocks, and
before each round the rest of the kernel may write buffers back and evict them, so a call is a relation
(`Writes`, `Reads`) with background steps between its rounds.

A block that is written as a whole is not read first, and its buffer is then dirty without being up to
date. Until it is written back, the next `breada` of that block reads the old bytes from the disk over
the new ones (`Lost`). Runs that keep clear of this treat the device as an array of bytes.
-/

namespace Linux011.Fs

open Linux011.Lib

namespace Cache

/-- `get_fs_byte` for successive bytes, into a buffer from offset `off` on. -/
def overlay (off : Nat) (bytes : List UInt8) (data : Nat → UInt8) (i : Nat) : UInt8 :=
  if off ≤ i ∧ i < off + bytes.length then bytes.getD (i - off) 0 else data i

/-- The buffer that `block_write` stores `chars` bytes into. -/
def bufferFor (b chars : Nat) (c : Cache) : Except Panic (Bool × Cache) :=
  if chars = 1024 then .ok (true, c.getblk b) else c.breada b [b + 1, b + 2]

/-- One round of `block_write`, for `bytes` from offset `off` of block `b` on. -/
def writeBlock (b off : Nat) (bytes : List UInt8) (c : Cache) : Except Panic (Bool × Cache) := do
  let (got, c) ← c.bufferFor b bytes.length
  if got then do
    let c ← (c.modify b (overlay off bytes)).brelse b
    return (true, c)
  else return (false, c)

/-- One round of `block_read`, for `chars` bytes. -/
def readBlock (b off chars : Nat) (c : Cache) : Except Panic (Option (List UInt8) × Cache) := do
  let (got, c) ← c.breada b [b + 1, b + 2]
  if got then do
    let bytes := (List.range chars).map fun i => (c.head b).data (off + i)
    let c ← c.brelse b
    return (some bytes, c)
  else return (none, c)

/-- The number of bytes the next round is about. -/
def chars (pos count : Nat) : Nat := min (1024 - pos % 1024) count

/-- `block_write` from `*pos = pos` on, with `bytes` still to write and `written` of them written in the
end. `P` says from which states a round is considered. -/
inductive Writes (P : Cache → Nat → Nat → Prop) :
    Cache → Nat → List UInt8 → Nat → Cache → Prop
  | done {c pos} : Writes P c pos [] 0 c
  | background {c c₁ c' pos bytes written} (h : Background c c₁)
      (rest : Writes P c₁ pos bytes written c') : Writes P c pos bytes written c'
  | block {c c₁ c' pos bytes written} (hne : bytes ≠ [])
      (hP : P c (pos / 1024) (chars pos bytes.length))
      (hblock : c.writeBlock (pos / 1024) (pos % 1024) (bytes.take (chars pos bytes.length))
        = .ok (true, c₁))
      (rest : Writes P c₁ (pos + chars pos bytes.length) (bytes.drop (chars pos bytes.length))
        written c') :
      Writes P c pos bytes (chars pos bytes.length + written) c'
  | failed {c c' pos bytes} (hne : bytes ≠ []) (hP : P c (pos / 1024) (chars pos bytes.length))
      (hblock : c.writeBlock (pos / 1024) (pos % 1024) (bytes.take (chars pos bytes.length))
        = .ok (false, c')) :
      Writes P c pos bytes 0 c'

/-- `block_read` from `*pos = pos` on, with `count` bytes still to read and `result` read in the end. -/
inductive Reads (P : Cache → Nat → Prop) : Cache → Nat → Nat → List UInt8 → Cache → Prop
  | done {c pos} : Reads P c pos 0 [] c
  | background {c c₁ c' pos count result} (h : Background c c₁)
      (rest : Reads P c₁ pos count result c') : Reads P c pos count result c'
  | block {c c₁ c' pos count bytes result} (hne : count ≠ 0) (hP : P c (pos / 1024))
      (hblock : c.readBlock (pos / 1024) (pos % 1024) (chars pos count) = .ok (some bytes, c₁))
      (rest : Reads P c₁ (pos + chars pos count) (count - chars pos count) result c') :
      Reads P c pos count (bytes ++ result) c'
  | failed {c c' pos count} (hne : count ≠ 0) (hP : P c (pos / 1024))
      (hblock : c.readBlock (pos / 1024) (pos % 1024) (chars pos count) = .ok (none, c')) :
      Reads P c pos count [] c'

/-- A buffer whose bytes the next `breada` throws away. -/
def Lost (c : Cache) (b : Nat) : Prop := (c.head b).dirt = true ∧ (c.head b).uptodate = false

inductive Call where
  | write (pos : Nat) (bytes : List UInt8) (written : Nat)
  | read (pos count : Nat) (result : List UInt8)

/-- The calls of the code. -/
inductive Call.Step (c : Cache) : Call → Cache → Prop
  | write {pos bytes written c'} (h : Writes (fun _ _ _ => True) c pos bytes written c') :
      Call.Step c (.write pos bytes written) c'
  | read {pos count result c'} (h : Reads (fun _ _ => True) c pos count result c') :
      Call.Step c (.read pos count result) c'

/-- The calls in which no round that reads its block first meets a lost buffer. -/
inductive Call.SafeStep (c : Cache) : Call → Cache → Prop
  | write {pos bytes written c'}
      (h : Writes (fun c b n => n < 1024 → ¬ Lost c b) c pos bytes written c') :
      Call.SafeStep c (.write pos bytes written) c'
  | read {pos count result c'} (h : Reads (fun c b => ¬ Lost c b) c pos count result c') :
      Call.SafeStep c (.read pos count result) c'

/-- What a call does to a device that is an array of bytes. -/
def Call.apply (dev : Nat → UInt8) : Call → Nat → UInt8
  | .write pos bytes _ => overlay pos bytes dev
  | .read _ _ _ => dev

/-- Nothing is cached. -/
def start (disk : Nat → Nat → UInt8) (recycled : Nat → Nat → UInt8) : Cache where
  buffer := fun _ => none
  disk
  works := fun _ => true
  recycled

/-! ## One round -/

/-- The bytes last written to a block. -/
def latest (c : Cache) (b : Nat) : Nat → UInt8 :=
  if (c.head b).uptodate || (c.head b).dirt then (c.head b).data else c.disk b

/-- The cache in front of a device with the bytes `dev`, whose requests succeed. -/
structure Holds (dev : Nat → UInt8) (c : Cache) : Prop where
  latest : ∀ b, ∀ i < 1024, c.latest b i = dev (1024 * b + i)
  clean : ∀ b, (c.head b).uptodate = true → (c.head b).dirt = false → (c.head b).data = c.disk b
  works : ∀ b, c.works b = true

variable {dev : Nat → UInt8} {c c' : Cache} {b : Nat}

/-- A buffer is replaced by one that stands for the bytes of its block. -/
theorem Holds.set (h : Holds dev c) {dev' : Nat → UInt8} {r : Buffer}
    (hrest : ∀ b' ≠ b, ∀ i < 1024, dev' (1024 * b' + i) = dev (1024 * b' + i))
    (hnew : ∀ i < 1024, (if r.uptodate || r.dirt then r.data else c.disk b) i = dev' (1024 * b + i))
    (hclean : r.uptodate = true → r.dirt = false → r.data = c.disk b) :
    Holds dev' (c.set b r) := by
  refine ⟨fun b' i hi => ?_, fun b' => ?_, h.works⟩
  · unfold Cache.latest
    rcases eq_or_ne b' b with rfl | hne
    · rw [head_set_self]
      exact hnew i hi
    · rw [head_set_of_ne hne, hrest b' hne i hi]
      exact h.latest b' i hi
  · rcases eq_or_ne b' b with rfl | hne
    · rw [head_set_self]
      exact hclean
    · rw [head_set_of_ne hne]
      exact h.clean b'

theorem Holds.count (h : Holds dev c) (n : Nat) :
    Holds dev (c.set b { c.head b with count := n }) :=
  h.set (fun _ _ _ _ => rfl) (h.latest b) (h.clean b)

theorem Holds.getblk (h : Holds dev c) : Holds dev (c.getblk b) := by
  rw [getblk_eq]
  exact h.count _

/-- Reading a block gives its latest bytes, unless they were lost. -/
theorem Holds.read (h : Holds dev c) (hlost : ¬ Lost c b) :
    Holds dev (c.llRwBlock .read b) ∧ ((c.llRwBlock .read b).head b).uptodate = true ∧
      (c.llRwBlock .read b).held = c.held := by
  refine ⟨?_, uptodate_read (h.works b), held_read⟩
  have hworks := h.works b
  unfold llRwBlock
  simp only
  split
  · exact h
  · next hup =>
    have hclean : (c.head b).dirt = false := by
      by_contra hdirt
      exact hlost ⟨by simpa using hdirt, by simpa using hup⟩
    have hold := h.latest b
    unfold Cache.latest at hold
    rw [if_neg (by simpa [hclean] using hup)] at hold
    exact h.set (fun _ _ _ _ => rfl) hold fun _ _ => rfl

/-- The other blocks of `breada` are given a buffer and let go. The request made for them does nothing,
since it names a buffer that is up to date by then. -/
theorem head_readAhead (hup : (c.head b).uptodate = true) (tmp : Nat) :
    (c.readAhead b tmp).head = c.head ∧ (c.readAhead b tmp).disk = c.disk ∧
      (c.readAhead b tmp).works = c.works := by
  have hskip : (c.getblk tmp).llRwBlock .reada b = c.getblk tmp := by
    unfold llRwBlock
    simp only
    rw [if_pos]
    rw [getblk_eq, head_set]
    split
    · next heq => rw [← heq, hup]
    · exact hup
  have heq : c.readAhead b tmp = (c.getblk tmp).set tmp (c.head tmp) := by
    unfold Cache.readAhead
    simp only [hskip, ite_self]
    rw [getblk_eq, head_set_self]
    rfl
  rw [heq, getblk_eq]
  refine ⟨funext fun b' => ?_, rfl, rfl⟩
  rcases eq_or_ne b' tmp with rfl | hne
  · rw [head_set_self]
  · rw [head_set_of_ne hne, head_set_of_ne hne]

theorem head_readsAhead : ∀ (L : List Nat) (c : Cache), (c.head b).uptodate = true →
    (L.foldl (fun c tmp => c.readAhead b tmp) c).head = c.head ∧
      (L.foldl (fun c tmp => c.readAhead b tmp) c).disk = c.disk ∧
      (L.foldl (fun c tmp => c.readAhead b tmp) c).works = c.works := by
  intro L
  induction L with
  | nil => exact fun c _ => ⟨rfl, rfl, rfl⟩
  | cons tmp L ih =>
    intro c hup
    obtain ⟨h1, h2, h3⟩ := head_readAhead hup tmp
    obtain ⟨h1', h2', h3'⟩ := ih (c.readAhead b tmp) (by rw [h1, hup])
    exact ⟨h1'.trans h1, h2'.trans h2, h3'.trans h3⟩

/-- `breada` is `getblk`, and a read where the buffer is not up to date. -/
theorem breada_spec (hworks : c.works b = true) (ahead : List Nat) :
    ∃ c', c.breada b ahead = .ok (true, c') ∧ c'.head = ((c.getblk b).llRwBlock .read b).head ∧
      c'.disk = c.disk ∧ c'.works = c.works := by
  have hfirst : (if ((c.getblk b).head b).uptodate then c.getblk b
      else (c.getblk b).llRwBlock .read b) = (c.getblk b).llRwBlock .read b := by
    split
    · next hup =>
      unfold llRwBlock
      simp only
      rw [if_pos hup]
    · rfl
  have hdisk : ((c.getblk b).llRwBlock .read b).disk = c.disk := by
    rw [getblk_eq]
    unfold llRwBlock
    simp only
    split
    · rfl
    · split <;> rfl
  have hup : (((c.getblk b).llRwBlock .read b).head b).uptodate = true :=
    uptodate_read (by rw [(same_getblk b).works, hworks])
  obtain ⟨h1, h2, h3⟩ := head_readsAhead ahead _ hup
  refine ⟨_, ?_, h1, h2.trans hdisk, h3.trans (same_read.works.trans (same_getblk b).works)⟩
  unfold Cache.breada
  simp only
  rw [hfirst, h1, if_pos hup]

theorem Holds.congr (h : Holds dev c) (hhead : c'.head = c.head) (hdisk : c'.disk = c.disk)
    (hworks : c'.works = c.works) : Holds dev c' := by
  obtain ⟨h1, h2, h3⟩ := h
  refine ⟨?_, ?_, ?_⟩
  · unfold Cache.latest
    rw [hhead, hdisk]
    exact h1
  · rw [hhead, hdisk]
    exact h2
  · rw [hworks]
    exact h3

theorem Holds.breada (h : Holds dev c) (hlost : ¬ Lost c b) (ahead : List Nat) :
    ∃ c', c.breada b ahead = .ok (true, c') ∧ Holds dev c' ∧ (c'.head b).uptodate = true ∧
      c'.held b = c.held b + 1 := by
  obtain ⟨c', hc', hhead, hdisk, hworks⟩ := breada_spec (h.works b) ahead
  have hlost' : ¬ Lost (c.getblk b) b := by
    unfold Lost
    rw [getblk_eq, head_set_self]
    exact hlost
  obtain ⟨h₁, hup, hheld⟩ := h.getblk.read hlost'
  have hdisk' : ((c.getblk b).llRwBlock .read b).disk = c'.disk := by
    rw [hdisk, getblk_eq]
    unfold llRwBlock
    simp only
    split
    · rfl
    · split <;> rfl
  refine ⟨c', hc', h₁.congr hhead hdisk'.symm ?_, by rw [hhead, hup], ?_⟩
  · rw [hworks, same_read.works, (same_getblk b).works]
  · show (c'.head b).count = _
    rw [hhead]
    show Cache.held _ b = _
    rw [hheld, held_getblk, Function.update_self]

theorem Holds.brelse (h : Holds dev c) (hheld : 0 < c.held b) :
    ∃ c', c.brelse b = .ok c' ∧ Holds dev c' := by
  refine ⟨_, if_neg (Nat.pos_iff_ne_zero.mp hheld), h.count _⟩

/-- Bytes of a block are addressed by the block and the offset. -/
theorem overlay_block (b : Nat) (dev : Nat → UInt8) {off : Nat} {bytes : List UInt8}
    (hfits : off + bytes.length ≤ 1024) :
    (∀ i < 1024, overlay (1024 * b + off) bytes dev (1024 * b + i)
        = overlay off bytes (fun i => dev (1024 * b + i)) i) ∧
      ∀ b' ≠ b, ∀ i < 1024, overlay (1024 * b + off) bytes dev (1024 * b' + i)
        = dev (1024 * b' + i) := by
  constructor
  · intro i hi
    unfold overlay
    have hiff : (1024 * b + off ≤ 1024 * b + i ∧ 1024 * b + i < 1024 * b + off + bytes.length) ↔
        (off ≤ i ∧ i < off + bytes.length) := by omega
    simp only [hiff, show 1024 * b + i - (1024 * b + off) = i - off by omega]
  · intro b' hne i hi
    exact if_neg (by omega)

theorem Holds.modify (h : Holds dev c) {off : Nat} {bytes : List UInt8}
    (hfits : off + bytes.length ≤ 1024)
    (hnow : bytes.length = 1024 ∨ (c.head b).uptodate = true) :
    Holds (overlay (1024 * b + off) bytes dev) (c.modify b (overlay off bytes)) ∧
      (c.modify b (overlay off bytes)).held = c.held := by
  obtain ⟨hin, hout⟩ := overlay_block b dev hfits
  have hdirty : ∀ r : Buffer, r.dirt = true → r.uptodate = true → r.dirt = false →
      r.data = c.disk b := by
    intro r hd _ hd'
    rw [hd] at hd'
    cases hd'
  refine ⟨h.set hout (fun i hi => ?_) (hdirty _ rfl), ?_⟩
  · rw [if_pos (by simp), hin i hi]
    show overlay off bytes (c.head b).data i = overlay off bytes (fun i => dev (1024 * b + i)) i
    unfold overlay
    by_cases hnew : off ≤ i ∧ i < off + bytes.length
    · rw [if_pos hnew, if_pos hnew]
    · rw [if_neg hnew, if_neg hnew]
      rcases hnow with hfull | hup
      · omega
      · have hold := h.latest b i hi
        unfold Cache.latest at hold
        rwa [if_pos (by simp [hup])] at hold
  · rw [Cache.modify, set_held]
    exact Function.update_eq_self b c.held

/-- A round of `block_write` stores its bytes, and always succeeds. -/
theorem Holds.writeBlock (h : Holds dev c) {off : Nat} {bytes : List UInt8}
    (hfits : off + bytes.length ≤ 1024) (hsafe : bytes.length < 1024 → ¬ Lost c b) :
    ∃ c', c.writeBlock b off bytes = .ok (true, c') ∧
      Holds (overlay (1024 * b + off) bytes dev) c' := by
  have hget : ∃ c₁, c.bufferFor b bytes.length = .ok (true, c₁) ∧ Holds dev c₁ ∧
      (bytes.length = 1024 ∨ (c₁.head b).uptodate = true) ∧ c₁.held b = c.held b + 1 := by
    unfold bufferFor
    split
    · next hfull =>
      exact ⟨_, rfl, h.getblk, Or.inl hfull, by rw [held_getblk, Function.update_self]⟩
    · next hpart =>
      obtain ⟨c₁, hc₁, h₁, hup₁, hheld₁⟩ := h.breada (hsafe (by omega)) [b + 1, b + 2]
      exact ⟨c₁, hc₁, h₁, Or.inr hup₁, hheld₁⟩
  obtain ⟨c₁, hc₁, h₁, hnow, hheld₁⟩ := hget
  obtain ⟨h₂, hheld₂⟩ := h₁.modify hfits hnow
  obtain ⟨c₃, hc₃, h₃⟩ := h₂.brelse (b := b) (by rw [hheld₂, hheld₁]; exact Nat.succ_pos _)
  refine ⟨c₃, ?_, h₃⟩
  unfold Cache.writeBlock
  rw [hc₁]
  show (do let c ← (c₁.modify b (overlay off bytes)).brelse b; return (true, c)) = _
  rw [hc₃]
  rfl

/-- A round of `block_read` gives the bytes of the device, and always succeeds. -/
theorem Holds.readBlock (h : Holds dev c) {off n : Nat} (hfits : off + n ≤ 1024)
    (hsafe : ¬ Lost c b) :
    ∃ c', c.readBlock b off n
        = .ok (some ((List.range n).map fun i => dev (1024 * b + off + i)), c') ∧ Holds dev c' := by
  obtain ⟨c₁, hc₁, h₁, hup₁, hheld₁⟩ := h.breada hsafe [b + 1, b + 2]
  obtain ⟨c₂, hc₂, h₂⟩ := h₁.brelse (b := b) (by rw [hheld₁]; exact Nat.succ_pos _)
  refine ⟨c₂, ?_, h₂⟩
  have hbytes : (List.range n).map (fun i => (c₁.head b).data (off + i))
      = (List.range n).map fun i => dev (1024 * b + off + i) := by
    apply List.map_congr_left
    intro i hi
    have hlt := List.mem_range.mp hi
    have hold := h₁.latest b (off + i) (by omega)
    unfold Cache.latest at hold
    rw [if_pos (by simp [hup₁])] at hold
    rw [hold, Nat.add_assoc]
  unfold Cache.readBlock
  rw [hc₁]
  show (do let c ← c₁.brelse b
           return (some ((List.range n).map fun i => (c₁.head b).data (off + i)), c)) = _
  rw [hc₂, hbytes]
  rfl

/-! ## Whole calls -/

theorem Holds.background (h : Holds dev c) (hstep : Background c c') : Holds dev c' := by
  cases hstep with
  | write b hworks =>
    unfold llRwBlock
    simp only
    split
    · exact h
    · next hdirt =>
      have hd : (c.head b).dirt = true := by simpa using hdirt
      refine ⟨fun b' i hi => ?_, fun b' => ?_, h.works⟩
      · have hold := h.latest b' i hi
        unfold Cache.latest at hold ⊢
        rcases eq_or_ne b' b with rfl | hne
        · rw [if_pos (by simp [hd])] at hold
          rwa [head_set_self, if_pos (by simp)]
        · rw [head_set_of_ne hne, disk_set]
          simp only [Function.update_of_ne hne]
          exact hold
      · rcases eq_or_ne b' b with rfl | hne
        · rw [head_set_self, disk_set]
          simp
        · rw [head_set_of_ne hne, disk_set]
          simp only [Function.update_of_ne hne]
          exact h.clean b'
  | evict b r hfree hclean =>
    obtain ⟨hself, hother⟩ := head_evict c b r
    refine ⟨fun b' i hi => ?_, fun b' => ?_, h.works⟩
    · have hold := h.latest b' i hi
      unfold Cache.latest at hold ⊢
      rcases eq_or_ne b' b with rfl | hne
      · rw [hself, if_neg (by simp)]
        rw [hclean, Bool.or_false] at hold
        split at hold
        · next hup => rw [← hold, h.clean b' hup hclean]; rfl
        · exact hold
      · obtain ⟨d, hd, hdata⟩ := hother b' hne
        rw [hd]
        rw [← hold]
        split
        · next hor => rw [hdata (by simpa using hor)]
        · rfl
    · rcases eq_or_ne b' b with rfl | hne
      · rw [hself]
        exact fun hup => by cases hup
      · obtain ⟨d, hd, hdata⟩ := hother b' hne
        rw [hd]
        intro hup hdirt
        exact (hdata (Or.inl hup)).trans (h.clean b' hup hdirt)

theorem overlay_nil (off : Nat) : overlay off [] dev = dev := by
  funext i
  exact if_neg (by simp)

/-- Bytes stored in two goes. -/
theorem overlay_take_drop {n : Nat} (pos : Nat) (bytes : List UInt8) (hn : n ≤ bytes.length) :
    overlay (pos + n) (bytes.drop n) (overlay pos (bytes.take n) dev) = overlay pos bytes dev := by
  funext i
  unfold overlay
  rw [List.length_drop, List.length_take, Nat.min_eq_left hn]
  by_cases hlow : i < pos + n
  · rw [if_neg (by omega)]
    by_cases hpos : pos ≤ i
    · rw [if_pos ⟨hpos, hlow⟩, if_pos ⟨hpos, by omega⟩]
      simp only [List.getD_eq_getElem?_getD, List.getElem?_take]
      rw [if_pos (by omega)]
    · rw [if_neg (by omega), if_neg (by omega)]
  · by_cases hin : i < pos + bytes.length
    · rw [if_pos (by omega), if_pos (by omega)]
      simp only [List.getD_eq_getElem?_getD, List.getElem?_drop]
      rw [show n + (i - (pos + n)) = i - pos by omega]
    · rw [if_neg (by omega), if_neg (by omega), if_neg (by omega)]

theorem chars_pos (pos : Nat) {count : Nat} (h : count ≠ 0) :
    0 < chars pos count ∧ chars pos count ≤ count ∧ pos % 1024 + chars pos count ≤ 1024 := by
  unfold chars
  omega

/-- `block_write` writes everything. -/
theorem Holds.writes {pos written : Nat} {bytes : List UInt8} (h : Holds dev c)
    (hcall : Writes (fun c b n => n < 1024 → ¬ Lost c b) c pos bytes written c') :
    Holds (overlay pos bytes dev) c' ∧ written = bytes.length := by
  induction hcall generalizing dev with
  | done => exact ⟨by rwa [overlay_nil], rfl⟩
  | background hstep _ ih => exact ih (h.background hstep)
  | @block c c₁ c' pos bytes written hne hP hblock _ ih =>
    have hcount : bytes.length ≠ 0 := by simpa using hne
    obtain ⟨hpos, hle, hfits⟩ := chars_pos pos hcount
    have hlen : (bytes.take (chars pos bytes.length)).length = chars pos bytes.length := by
      rw [List.length_take, Nat.min_eq_left hle]
    obtain ⟨c₂, hc₂, h₂⟩ := h.writeBlock (by rw [hlen]; exact hfits) (by rw [hlen]; exact hP)
    rw [hblock] at hc₂
    cases hc₂
    rw [Nat.div_add_mod] at h₂
    obtain ⟨h₃, hwritten⟩ := ih h₂
    rw [overlay_take_drop pos bytes hle] at h₃
    rw [List.length_drop] at hwritten
    exact ⟨h₃, by omega⟩
  | @failed c c' pos bytes hne hP hblock =>
    have hcount : bytes.length ≠ 0 := by simpa using hne
    obtain ⟨hpos, hle, hfits⟩ := chars_pos pos hcount
    have hlen : (bytes.take (chars pos bytes.length)).length = chars pos bytes.length := by
      rw [List.length_take, Nat.min_eq_left hle]
    obtain ⟨c₂, hc₂, -⟩ := h.writeBlock (by rw [hlen]; exact hfits) (by rw [hlen]; exact hP)
    rw [hblock] at hc₂
    cases hc₂

/-- `block_read` reads the bytes of the device. -/
theorem Holds.reads {pos count : Nat} {result : List UInt8} (h : Holds dev c)
    (hcall : Reads (fun c b => ¬ Lost c b) c pos count result c') :
    Holds dev c' ∧ result = (List.range count).map fun i => dev (pos + i) := by
  induction hcall with
  | done => exact ⟨h, rfl⟩
  | background hstep _ ih => exact ih (h.background hstep)
  | @block c c₁ c' pos count bytes result hne hP hblock _ ih =>
    obtain ⟨hpos, hle, hfits⟩ := chars_pos pos hne
    obtain ⟨c₂, hc₂, h₂⟩ := h.readBlock hfits hP
    rw [hblock] at hc₂
    cases hc₂
    obtain ⟨h₃, hresult⟩ := ih h₂
    refine ⟨h₃, ?_⟩
    rw [hresult, Nat.div_add_mod]
    conv_rhs => rw [show count = chars pos count + (count - chars pos count) by omega,
      List.range_add, List.map_append, List.map_map]
    congr 1
    apply List.map_congr_left
    intro i _
    simp only [Function.comp, Nat.add_assoc]
  | failed hne hP hblock =>
    obtain ⟨hpos, hle, hfits⟩ := chars_pos _ hne
    obtain ⟨c₂, hc₂, -⟩ := h.readBlock hfits hP
    rw [hblock] at hc₂
    cases hc₂

theorem Holds.start (disk recycled : Nat → Nat → UInt8) :
    Holds (fun a => disk (a / 1024) (a % 1024)) (start disk recycled) := by
  refine ⟨fun b i hi => ?_, fun b hup => ?_, fun _ => rfl⟩
  · show disk b i = disk ((1024 * b + i) / 1024) ((1024 * b + i) % 1024)
    rw [show (1024 * b + i) / 1024 = b by omega, show (1024 * b + i) % 1024 = i by omega]
  · cases hup

/-- After any safe run of calls, the next safe call reads what was written last, or writes all its
bytes. -/
theorem reads_latest {disk recycled : Nat → Nat → UInt8} {calls : List Call}
    (hrun : Run Call.SafeStep (start disk recycled) calls c) :
    (∀ pos count result c', Call.SafeStep c (.read pos count result) c' →
      result = (List.range count).map fun i =>
        calls.foldl Call.apply (fun a => disk (a / 1024) (a % 1024)) (pos + i)) ∧
    ∀ pos bytes written c', Call.SafeStep c (.write pos bytes written) c' →
      written = bytes.length := by
  have hholds : Holds (calls.foldl Call.apply fun a => disk (a / 1024) (a % 1024)) c := by
    refine Run.refine (R := fun c dev => Holds dev c) ?_ (Holds.start disk recycled) hrun
    intro c call c' dev h hstep
    cases hstep with
    | write hcall => exact (h.writes hcall).1
    | read hcall => exact (h.reads hcall).1
  constructor
  · intro pos count result c' hstep
    cases hstep with
    | read hcall => exact (hholds.reads hcall).2
  · intro pos bytes written c' hstep
    cases hstep with
    | write hcall => exact (hholds.writes hcall).2

/-- A device full of zeroes, nothing cached. -/
def blank : Cache := start (fun _ _ => 0) fun _ _ => 0

/-- A safe run, and the byte it wrote comes back. -/
theorem reads_latest_patched : ∃ c, Run Call.SafeStep blank [Call.write 0 [7] 1] c ∧
    (∃ c', Call.SafeStep c (.read 0 1 [7]) c') ∧
    ∀ result c', Call.SafeStep c (.read 0 1 result) c' → result = [7] := by
  have hblank : ¬ Lost blank 0 := fun h => by cases h.1
  have hfits : 0 + [(7 : UInt8)].length ≤ 1024 := by decide
  obtain ⟨c, hc, hholds⟩ := (Holds.start (fun _ _ => 0) fun _ _ => 0).writeBlock hfits
    fun _ => hblank
  have hup : (c.head 0).uptodate = true := by
    have hround : (blank.writeBlock 0 0 [7]).toOption.map (fun r => (r.2.head 0).uptodate)
        = some true := by decide +kernel
    rw [show blank.writeBlock 0 0 [7] = .ok (true, c) from hc] at hround
    exact Option.some.inj hround
  have hsafe : ¬ Lost c 0 := by
    intro hlost
    have hdown : (c.head 0).uptodate = false := hlost.2
    rw [hup] at hdown
    cases hdown
  have hfits' : 0 + 1 ≤ 1024 := by decide
  obtain ⟨c', hc', -⟩ := hholds.readBlock hfits' hsafe
  have hwrite : Writes (fun c b n => n < 1024 → ¬ Lost c b) blank 0 [7] (1 + 0) c :=
    Writes.block (by decide) (fun _ => hblank) hc Writes.done
  have hrun : Run Call.SafeStep blank [Call.write 0 [7] 1] c := Run.nil.snoc (.write hwrite)
  have hread : Reads (fun c b => ¬ Lost c b) c 0 1 ([7] ++ []) c' :=
    Reads.block (by decide) hsafe hc' Reads.done
  refine ⟨c, hrun, ⟨c', Call.SafeStep.read hread⟩, ?_⟩
  intro result c' hread
  exact (reads_latest hrun).1 0 1 result c' hread

/-- What a round of `block_read` makes of a lost buffer: it reads the disk. -/
theorem readBlock_lost (hlost : Lost c b) (hworks : c.works b = true) (off n : Nat) :
    ∃ c', c.readBlock b off n = .ok (some ((List.range n).map fun i => c.disk b (off + i)), c') := by
  obtain ⟨c₁, hc₁, hhead, -, -⟩ := breada_spec hworks [b + 1, b + 2]
  have hread : ((c.getblk b).llRwBlock .read b).head b
      = ⟨c.disk b, true, false, (c.head b).count + 1⟩ := by
    rw [getblk_eq]
    unfold llRwBlock
    simp only [head_set_self, hlost.2]
    rw [if_neg (by simp), if_pos (by exact hworks), head_set_self]
    rfl
  have hrel : c₁.brelse b = .ok (c₁.set b { c₁.head b with count := (c₁.head b).count - 1 }) :=
    if_neg (by rw [hhead, hread]; exact Nat.succ_ne_zero _)
  refine ⟨c₁.set b { c₁.head b with count := (c₁.head b).count - 1 }, ?_⟩
  unfold Cache.readBlock
  rw [hc₁]
  show (do let c ← c₁.brelse b
           return (some ((List.range n).map fun i => (c₁.head b).data (off + i)), c)) = _
  rw [hrel, hhead, hread]
  rfl

/-- A block of sevens is written and its first byte read back as zero. -/
theorem reads_stale : ∃ c c', Call.Step blank (.write 0 (List.replicate 1024 7) 1024) c ∧
    Call.Step c (.read 0 1 [0]) c' ∧
    Call.apply (fun _ => 0) (.write 0 (List.replicate 1024 7) 1024) 0 = 7 := by
  have hlen : (List.replicate 1024 (7 : UInt8)).length = 1024 := List.length_replicate
  have hseven : (List.replicate 1024 (7 : UInt8)).getD 0 0 = 7 := by
    rw [List.replicate_succ]
    rfl
  generalize List.replicate 1024 (7 : UInt8) = bytes at hlen hseven ⊢
  have hchars : chars 0 bytes.length = 1024 := by
    rw [hlen]
    rfl
  have hround : ∃ c, blank.writeBlock (0 / 1024) (0 % 1024) (bytes.take (chars 0 bytes.length))
      = .ok (true, c) ∧ Lost c 0 ∧ c.works 0 = true ∧ c.disk = fun _ _ => 0 := by
    rw [hchars, List.take_of_length_le (Nat.le_of_eq hlen)]
    have hget : blank.bufferFor 0 bytes.length = .ok (true, blank.getblk 0) := if_pos hlen
    have hrel : ((blank.getblk 0).modify 0 (overlay 0 bytes)).brelse 0
        = .ok (((blank.getblk 0).modify 0 (overlay 0 bytes)).set 0
            ⟨overlay 0 bytes fun _ => 0, false, true, 0⟩) := rfl
    refine ⟨((blank.getblk 0).modify 0 (overlay 0 bytes)).set 0
      ⟨overlay 0 bytes fun _ => 0, false, true, 0⟩, ?_, ⟨rfl, rfl⟩, rfl, rfl⟩
    unfold Cache.writeBlock
    show (do let (got, c) ← blank.bufferFor 0 bytes.length
             if got then do
               let c ← (c.modify 0 (overlay 0 bytes)).brelse 0
               return (true, c)
             else return (false, c)) = _
    rw [hget]
    show (do let c ← ((blank.getblk 0).modify 0 (overlay 0 bytes)).brelse 0; return (true, c)) = _
    rw [hrel]
    rfl
  obtain ⟨c, hc, hlost, hworks, hdisk⟩ := hround
  obtain ⟨c', hc'⟩ := readBlock_lost hlost hworks 0 1
  rw [hdisk] at hc'
  have hne : bytes ≠ [] := by
    rintro rfl
    cases hlen
  have hrest : Writes (fun _ _ _ => True) c (0 + chars 0 bytes.length)
      (bytes.drop (chars 0 bytes.length)) 0 c := by
    rw [hchars, List.drop_of_length_le (Nat.le_of_eq hlen)]
    exact Writes.done
  have hcall := Writes.block hne trivial hc hrest
  rw [hchars] at hcall
  have hread : Reads (fun _ _ => True) c 0 1 ([0] ++ []) c' :=
    Reads.block (by decide) trivial hc' Reads.done
  refine ⟨c, c', Call.Step.write hcall, Call.Step.read hread, ?_⟩
  show overlay 0 bytes (fun _ => 0) 0 = 7
  unfold overlay
  rw [if_pos (by rw [hlen]; decide), hseven]

end Cache

end Linux011.Fs
