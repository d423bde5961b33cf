import Mathlib.Algebra.Group.Nat.Defs
import Linux011.Lib.Inevitable

/-!
# boot/bootsect.s

`read_it` and `read_track`, which load the system from the floppy with the BIOS: whole tracks where that is
possible, and never across a 64 kB boundary of memory. The registers are 16 bits wide. The BIOS is outside
of the code: it transfers the sectors that it is asked for if they lie in one track and if their place in
memory does not cross such a boundary, or it reports an error and leaves any bytes in that place.
-/

namespace Linux011.Boot

abbrev Memory := Nat → UInt8

def sysSeg : BitVec 16 := 0x1000
def sysSize : BitVec 16 := 0x3000
def endSeg : BitVec 16 := sysSeg + sysSize
def setupLen : Nat := 4

/-- `seg:off` -/
def physical (seg off : BitVec 16) : Nat := 16 * seg.toNat + off.toNat

/-! ## The BIOS -/

/-- The registers at `int $0x13`. -/
structure Int13 where
  ax : BitVec 16
  cx : BitVec 16
  dx : BitVec 16
  es : BitVec 16
  bx : BitVec 16

namespace Int13

variable (r : Int13)

def service : Nat := r.ax.toNat / 256
def count : Nat := r.ax.toNat % 256
def sector : Nat := r.cx.toNat % 64
def cylinder : Nat := r.cx.toNat / 256 + 256 * (r.cx.toNat / 64 % 4)
def head : Nat := r.dx.toNat / 256
def drive : Nat := r.dx.toNat % 256
def address : Nat := physical r.es r.bx

/-- The number of the first sector on a disk with two heads and so many sectors in a track. -/
def first (sectors : Nat) : Nat := (2 * r.cylinder + r.head) * sectors + (r.sector - 1)

/-- What the BIOS can do. -/
structure Good (sectors : Nat) : Prop where
  service : r.service = 2
  drive : r.drive = 0
  head : r.head < 2
  sector : 1 ≤ r.sector
  count : 1 ≤ r.count
  track : r.sector - 1 + r.count ≤ sectors
  boundary : r.address % 0x10000 + 512 * r.count ≤ 0x10000

/-- The bytes of memory that the BIOS writes. -/
def Within (p : Nat) : Prop := r.address ≤ p ∧ p < r.address + 512 * r.count

instance (p : Nat) : Decidable (r.Within p) := inferInstanceAs (Decidable (_ ∧ _))

def transfer (image : Nat → UInt8) (sectors : Nat) (mem : Memory) : Memory := fun p =>
  if r.Within p then image (512 * r.first sectors + (p - r.address)) else mem p

/-- `read_track`: the disk is reset and the read taken up again until there is no error. That a read fails for ever
is left out; the loop is "unbreakable" then. -/
inductive Reads (image : Nat → UInt8) (sectors : Nat) (r : Int13) : Memory → Memory → Prop
  | ok {mem : Memory} (h : r.Good sectors) : Reads image sectors r mem (r.transfer image sectors mem)
  | bad {mem mem₁ mem' : Memory} (h : r.Good sectors) (hrest : ∀ p, ¬ r.Within p → mem₁ p = mem p)
      (hread : Reads image sectors r mem₁ mem') : Reads image sectors r mem mem'

variable {r}

/-- Failed attempts leave no trace. -/
theorem Reads.transfer {image : Nat → UInt8} {sectors : Nat} {mem mem' : Memory}
    (h : r.Reads image sectors mem mem') : mem' = r.transfer image sectors mem := by
  induction h with
  | ok _ => rfl
  | bad _ hrest _ ih =>
    rw [ih]
    funext p
    unfold Int13.transfer
    split
    · rfl
    · next hp => exact hrest p hp

end Int13

/-! ## `read_it` -/

/-- The registers and variables of `read_it`, and the memory. -/
structure Loader where
  es : BitVec 16
  bx : BitVec 16
  sread : BitVec 16
  head : BitVec 16
  track : BitVec 16
  mem : Memory

namespace Loader

/-- `mov %dl, %ch` and the like: the low byte of `x` in the high byte. -/
def high (x : BitVec 16) : BitVec 16 := (x &&& 0xff) <<< 8

/-- The registers that `read_track` loads, with the number of sectors in `al`. -/
def request (s : Loader) (ax : BitVec 16) : Int13 where
  ax := 0x0200 ||| (ax &&& 0xff)
  cx := high s.track ||| ((s.sread + 1) &&& 0xff)
  dx := high s.head &&& 0x0100
  es := s.es
  bx := s.bx

/-- From `ok1_read` to `ok2_read`: the rest of the track, or what is left of the segment. -/
def amount (sectors : BitVec 16) (s : Loader) : BitVec 16 :=
  let ax := sectors - s.sread
  let cx := ax <<< 9
  let carry := 2 ^ 16 ≤ cx.toNat + s.bx.toNat
  let zero := cx + s.bx = 0
  if ¬ carry ∨ zero then ax else (0 - s.bx) >>> 9

/-- From `ok2_read` on: the next sector, head and track. -/
def seek (sectors ax : BitVec 16) (s : Loader) : Loader :=
  let next := ax + s.sread
  if next ≠ sectors then { s with sread := next }
  else if 1 - s.head ≠ 0 then { s with head := 1 - s.head, sread := 0 }
  else { s with track := s.track + 1, head := 1 - s.head, sread := 0 }

/-- From `ok3_read` on: the next place in memory. -/
def advance (ax : BitVec 16) (s : Loader) : Loader :=
  let cx := ax <<< 9
  if cx.toNat + s.bx.toNat < 2 ^ 16 then { s with bx := s.bx + cx }
  else { s with es := s.es + 0x1000, bx := 0 }

/-- One turn of the loop at `rp_read`, with the number of sectors in `cs:sectors`. -/
inductive Turn (image : Nat → UInt8) (sectors : BitVec 16) (s : Loader) : Loader → Prop
  | read {mem : Memory} (hmore : s.es < endSeg)
      (h : (s.request (s.amount sectors)).Reads image sectors.toNat s.mem mem) :
      Turn image sectors s
        (({ s with mem } : Loader).seek sectors (s.amount sectors) |>.advance (s.amount sectors))

/-- `read_it` is called. -/
def start (mem : Memory) : Loader where
  es := sysSeg
  bx := 0
  sread := BitVec.ofNat 16 (1 + setupLen)
  head := 0
  track := 0
  mem

/-! ## What the registers say -/

variable {image : Nat → UInt8} {sectors : BitVec 16} {s s' : Loader} {mem : Memory} {k : Nat}

theorem and_ff (x : BitVec 16) : (x &&& 0xff).toNat = x.toNat % 256 := by
  rw [BitVec.toNat_and]
  exact Nat.and_two_pow_sub_one_eq_mod x.toNat 8

theorem high_toNat (x : BitVec 16) : (high x).toNat = 256 * (x.toNat % 256) := by
  unfold high
  rw [BitVec.toNat_shiftLeft, and_ff, Nat.shiftLeft_eq]
  omega

/-- Two bytes make a register. -/
theorem or_toNat {x y : BitVec 16} {a : Nat} (hx : x.toNat = 256 * a) : (x ||| (y &&& 0xff)).toNat =
    256 * a + y.toNat % 256 := by
  rw [BitVec.toNat_or, and_ff, hx]
  exact (Nat.two_pow_add_eq_or_of_lt (i := 8) (Nat.mod_lt _ (by decide)) a).symm

theorem request_count (s : Loader) (ax : BitVec 16) : (s.request ax).service = 2 ∧
    (s.request ax).count = ax.toNat % 256 := by
  have hax : (s.request ax).ax.toNat = 256 * 2 + ax.toNat % 256 := or_toNat (y := ax) rfl
  unfold Int13.service Int13.count
  rw [hax]
  omega

theorem request_place (s : Loader) (ax : BitVec 16) (htrack : s.track.toNat < 256) (hsread : s.sread.toNat < 63) :
    (s.request ax).cylinder = s.track.toNat ∧ (s.request ax).sector = s.sread.toNat + 1 := by
  have hnext : (s.sread + 1).toNat = s.sread.toNat + 1 := by
    rw [BitVec.toNat_add]
    show (s.sread.toNat + 1) % 2 ^ 16 = _
    omega
  have hcx : (s.request ax).cx.toNat = 256 * (s.track.toNat % 256) + (s.sread + 1).toNat % 256 :=
    or_toNat (high_toNat s.track)
  unfold Int13.cylinder Int13.sector
  rw [hcx, hnext]
  omega

theorem request_head (s : Loader) (ax : BitVec 16) (hhead : s.head.toNat < 2) :
    (s.request ax).head = s.head.toNat ∧ (s.request ax).drive = 0 := by
  have hbit : s.head = 0 ∨ s.head = 1 := by
    rcases Nat.lt_or_ge s.head.toNat 1 with h | h
    · exact .inl (BitVec.eq_of_toNat_eq (by show s.head.toNat = 0; omega))
    · exact .inr (BitVec.eq_of_toNat_eq (by show s.head.toNat = 1; omega))
  show (high s.head &&& 0x0100).toNat / 256 = _ ∧ (high s.head &&& 0x0100).toNat % 256 = 0
  rcases hbit with h | h <;> rw [h] <;> decide

/-! ## The loop -/

/-- `k` sectors of the system are in memory. -/
structure Loaded (image : Nat → UInt8) (sectors : BitVec 16) (mem : Memory) (k : Nat) (s : Loader) : Prop where
  es : s.es.toNat = 0x1000 * (1 + k / 128)
  bx : s.bx.toNat = 512 * (k % 128)
  sread : s.sread.toNat < sectors.toNat
  head : s.head.toNat < 2
  place : (2 * s.track.toNat + s.head.toNat) * sectors.toNat + s.sread.toNat = 1 + setupLen + k
  limit : k ≤ 384
  mem : ∀ p, s.mem p =
    if 0x10000 ≤ p ∧ p < 0x10000 + 512 * k then image (512 * (1 + setupLen) + (p - 0x10000)) else mem p

theorem Loaded.track (h : Loaded image sectors mem k s) (hlow : 5 < sectors.toNat) : s.track.toNat < 33 := by
  have hle : (2 * s.track.toNat + s.head.toNat) * 6 ≤ (2 * s.track.toNat + s.head.toNat) * sectors.toNat :=
    Nat.mul_le_mul_left _ hlow
  have hplace := h.place
  have hlimit := h.limit
  have hlen : setupLen = 4 := rfl
  omega

theorem shl_toNat {x : BitVec 16} (h : x.toNat < 128) : (x <<< 9).toNat = 512 * x.toNat := by
  rw [BitVec.toNat_shiftLeft, Nat.shiftLeft_eq]
  omega

theorem sub_toNat {x y : BitVec 16} (h : y.toNat ≤ x.toNat) : (x - y).toNat = x.toNat - y.toNat := by
  have hx : x.toNat < 2 ^ 16 := x.isLt
  rw [BitVec.toNat_sub]
  omega

/-- The whole rest of the track, if it fits into the segment. -/
theorem Loaded.amount (h : Loaded image sectors mem k s) (hhigh : sectors.toNat < 64) :
    (s.amount sectors).toNat = min (sectors.toNat - s.sread.toNat) (128 - k % 128) := by
  have hbx := h.bx
  have hsread := h.sread
  have hsub := sub_toNat (Nat.le_of_lt hsread)
  have hshl := shl_toNat (x := sectors - s.sread) (by omega)
  have hzero : (sectors - s.sread) <<< 9 + s.bx = 0 ↔
      ((sectors - s.sread) <<< 9).toNat + s.bx.toNat = 2 ^ 16 := by
    constructor
    · intro heq
      have hnat := congrArg BitVec.toNat heq
      rw [BitVec.toNat_add] at hnat
      change _ % 2 ^ 16 = 0 at hnat
      omega
    · intro heq
      apply BitVec.eq_of_toNat_eq
      rw [BitVec.toNat_add, heq]
      rfl
  unfold Loader.amount
  simp only [hzero]
  split
  · next hfits => omega
  · next hfull =>
    have hrest : ((0 : BitVec 16) - s.bx).toNat = 2 ^ 16 - s.bx.toNat := by
      rw [BitVec.toNat_sub]
      show (2 ^ 16 - s.bx.toNat + 0) % 2 ^ 16 = _
      omega
    rw [BitVec.toNat_ushiftRight, hrest, Nat.shiftRight_eq_div_pow]
    omega

/-- Some sectors, all of this track and this segment. -/
theorem Loaded.amount_le (h : Loaded image sectors mem k s) (hhigh : sectors.toNat < 64) :
    0 < (s.amount sectors).toNat ∧ s.sread.toNat + (s.amount sectors).toNat ≤ sectors.toNat ∧
      k % 128 + (s.amount sectors).toNat ≤ 128 := by
  have hsread := h.sread
  have hmod : k % 128 < 128 := Nat.mod_lt _ (by decide)
  rw [h.amount hhigh]
  exact ⟨Nat.lt_min.mpr ⟨by omega, by omega⟩, by omega, by omega⟩

theorem Loaded.request (h : Loaded image sectors mem k s) (hlow : 5 < sectors.toNat) (hhigh : sectors.toNat < 64) :
    (s.request (s.amount sectors)).Good sectors.toNat ∧
      (s.request (s.amount sectors)).count = (s.amount sectors).toNat ∧
      (s.request (s.amount sectors)).first sectors.toNat = 1 + setupLen + k ∧
      (s.request (s.amount sectors)).address = 0x10000 + 512 * k := by
  obtain ⟨hpos, hrest, hfits⟩ := h.amount_le hhigh
  have hsread := h.sread
  have htrack := h.track hlow
  obtain ⟨hservice, hcount⟩ := request_count s (s.amount sectors)
  obtain ⟨hcylinder, hsector⟩ := request_place s (s.amount sectors) (by omega) (by omega)
  obtain ⟨hhead, hdrive⟩ := request_head s (s.amount sectors) h.head
  have haddress : (s.request (s.amount sectors)).address = 0x10000 + 512 * k := by
    show 16 * s.es.toNat + s.bx.toNat = _
    rw [h.es, h.bx]
    omega
  have hcount : (s.request (s.amount sectors)).count = (s.amount sectors).toNat := by omega
  refine ⟨⟨hservice, hdrive, hhead ▸ h.head, ?_, ?_, ?_, ?_⟩, hcount, ?_, haddress⟩
  · omega
  · omega
  · omega
  · rw [haddress]
    omega
  · unfold Int13.first
    rw [hcylinder, hsector, hhead]
    exact h.place

/-- Behind the sectors that were read come the rest of the track, the other head, and the next track. -/
theorem Loaded.seek (h : Loaded image sectors mem k s) (hlow : 5 < sectors.toNat) (hhigh : sectors.toNat < 64)
    (ax : BitVec 16) (hax : s.sread.toNat + ax.toNat ≤ sectors.toNat) :
    (s.seek sectors ax).sread.toNat < sectors.toNat ∧ (s.seek sectors ax).head.toNat < 2 ∧
      (2 * (s.seek sectors ax).track.toNat + (s.seek sectors ax).head.toNat) * sectors.toNat +
        (s.seek sectors ax).sread.toNat = 1 + setupLen + (k + ax.toNat) := by
  have hplace := h.place
  have hhead := h.head
  have htrack := h.track hlow
  have hnext : (ax + s.sread).toNat = ax.toNat + s.sread.toNat := by
    rw [BitVec.toNat_add]
    omega
  have hother : (1 - s.head).toNat = 1 - s.head.toNat := sub_toNat (Nat.le_of_lt_succ hhead)
  have hzero : (0 : BitVec 16).toNat = 0 := rfl
  by_cases hne : ax + s.sread ≠ sectors
  · have hseek : s.seek sectors ax = { s with sread := ax + s.sread } := if_pos hne
    have hnat : ax.toNat + s.sread.toNat ≠ sectors.toNat := fun heq => hne (BitVec.eq_of_toNat_eq (hnext.trans heq))
    rw [hseek]
    refine ⟨hnext ▸ ?_, hhead, ?_⟩
    · omega
    · show (2 * s.track.toNat + s.head.toNat) * sectors.toNat + (ax + s.sread).toNat = _
      rw [hnext]
      omega
  · have heq : ax.toNat + s.sread.toNat = sectors.toNat := by rw [← hnext, not_not.mp hne]
    by_cases hflip : 1 - s.head ≠ 0
    · have hseek : s.seek sectors ax = { s with head := 1 - s.head, sread := 0 } :=
        (if_neg hne).trans (if_pos hflip)
      have hhead0 : s.head.toNat = 0 := by
        have hnat : (1 - s.head).toNat ≠ 0 := fun h0 => hflip (BitVec.eq_of_toNat_eq h0)
        omega
      rw [hhead0, Nat.add_zero] at hplace
      rw [hhead0] at hother
      rw [hseek]
      refine ⟨hzero ▸ ?_, hother ▸ ?_, ?_⟩
      · omega
      · decide
      · show (2 * s.track.toNat + (1 - s.head).toNat) * _ + (0 : BitVec 16).toNat = _
        rw [hother, hzero, Nat.sub_zero, Nat.succ_mul]
        omega
    · have hseek : s.seek sectors ax = { s with track := s.track + 1, head := 1 - s.head, sread := 0 } :=
        (if_neg hne).trans (if_neg hflip)
      have hhead1 : s.head.toNat = 1 := by
        rw [not_not.mp hflip, hzero] at hother
        omega
      have hsucc : (s.track + 1).toNat = s.track.toNat + 1 := by
        rw [BitVec.toNat_add]
        show (s.track.toNat + 1) % 2 ^ 16 = _
        omega
      rw [hhead1] at hplace hother
      rw [hseek]
      refine ⟨hzero ▸ ?_, hother ▸ ?_, ?_⟩
      · omega
      · decide
      · show (2 * (s.track + 1).toNat + (1 - s.head).toNat) * _ + (0 : BitVec 16).toNat = _
        have hdouble : 2 * (s.track.toNat + 1) + (1 - 1) = 2 * s.track.toNat + 1 + 1 := by omega
        rw [hother, hzero, hsucc, hdouble, Nat.succ_mul]
        omega

theorem advance_place (hes : s.es.toNat = 0x1000 * (1 + k / 128)) (hbx : s.bx.toNat = 512 * (k % 128))
    (hk : k < 384) (ax : BitVec 16) (hax : ax.toNat ≤ 128 - k % 128) (hsmall : ax.toNat < 64) :
    (s.advance ax).es.toNat = 0x1000 * (1 + (k + ax.toNat) / 128) ∧
      (s.advance ax).bx.toNat = 512 * ((k + ax.toNat) % 128) := by
  have hshl := shl_toNat (x := ax) (by omega)
  unfold Loader.advance
  simp only
  split
  · next hfits =>
    have hadd : (s.bx + ax <<< 9).toNat = s.bx.toNat + (ax <<< 9).toNat := by
      rw [BitVec.toNat_add]
      omega
    refine ⟨hes.trans ?_, hadd.trans ?_⟩
    · omega
    · omega
  · next hfull =>
    have hadd : (s.es + 0x1000).toNat = s.es.toNat + 0x1000 := by
      rw [BitVec.toNat_add]
      show (s.es.toNat + 0x1000) % 2 ^ 16 = _
      omega
    refine ⟨hadd.trans ?_, ?_⟩
    · omega
    · show 0 = _
      omega

theorem seek_place (s : Loader) (sectors ax : BitVec 16) (mem : Memory) :
    (({ s with mem } : Loader).seek sectors ax) = { s.seek sectors ax with mem } ∧
      (s.seek sectors ax).es = s.es ∧ (s.seek sectors ax).bx = s.bx := by
  unfold Loader.seek
  simp only
  split
  · exact ⟨rfl, rfl, rfl⟩
  · split <;> exact ⟨rfl, rfl, rfl⟩

theorem advance_rest (s : Loader) (ax : BitVec 16) : (s.advance ax).sread = s.sread ∧ (s.advance ax).head = s.head ∧
    (s.advance ax).track = s.track ∧ (s.advance ax).mem = s.mem := by
  unfold Loader.advance
  simp only
  split <;> exact ⟨rfl, rfl, rfl, rfl⟩

theorem more_iff (h : Loaded image sectors mem k s) : s.es < endSeg ↔ k < 384 := by
  have hes := h.es
  have hlimit := h.limit
  have hend : endSeg.toNat = 0x4000 := rfl
  rw [BitVec.lt_def, hend]
  omega

/-- A turn of the loop loads some more sectors. -/
theorem Loaded.turn (h : Loaded image sectors mem k s) (hlow : 5 < sectors.toNat) (hhigh : sectors.toNat < 64)
    (hturn : Turn image sectors s s') : ∃ k', k < k' ∧ Loaded image sectors mem k' s' := by
  cases hturn with
  | read hmore hread =>
    rename_i mem'
    obtain ⟨hgood, hcount, hfirst, haddress⟩ := h.request hlow hhigh
    have hk := (more_iff h).mp hmore
    obtain ⟨hpos, hrest, hfits⟩ := h.amount_le hhigh
    generalize s.amount sectors = ax at *
    obtain ⟨hsread', hhead', hplace'⟩ := h.seek hlow hhigh ax hrest
    obtain ⟨hseek, hes, hbx⟩ := seek_place s sectors ax mem'
    obtain ⟨hes', hbx'⟩ := advance_place (s := { s.seek sectors ax with mem := mem' }) (hes ▸ h.es) (hbx ▸ h.bx)
      hk ax (Nat.le_sub_of_add_le' hfits) (by omega)
    obtain ⟨hsame, hsame', hsame'', hmem⟩ := advance_rest { s.seek sectors ax with mem := mem' } ax
    rw [hseek]
    refine ⟨k + ax.toNat, by omega, hes', hbx', hsame ▸ hsread', hsame' ▸ hhead', ?_, by omega, fun p => ?_⟩
    · rw [hsame, hsame', hsame'']
      exact hplace'
    · clear hes' hbx' hplace' hrest hfits
      rw [hmem]
      show mem' p = _
      rw [hread.transfer]
      have hwithin : (s.request ax).Within p ↔ 0x10000 + 512 * k ≤ p ∧ p < 0x10000 + 512 * k + 512 * ax.toNat := by
        unfold Int13.Within
        rw [hcount, haddress]
      unfold Int13.transfer
      rw [hfirst, haddress, h.mem p]
      by_cases hin : (s.request ax).Within p
      · have hp := hwithin.mp hin
        rw [if_pos hin, if_pos (by omega)]
        refine congrArg image ?_
        omega
      · have hp := mt hwithin.mpr hin
        rw [if_neg hin]
        by_cases hold : 0x10000 ≤ p ∧ p < 0x10000 + 512 * k
        · rw [if_pos hold, if_pos (by omega)]
        · rw [if_neg hold, if_neg (by omega)]

theorem start_loaded (hlow : 5 < sectors.toNat) : Loaded image sectors mem 0 (start mem) where
  es := rfl
  bx := rfl
  sread := hlow
  head := Nat.zero_lt_two
  place := by
    show (2 * 0 + 0) * sectors.toNat + 5 = _
    rw [Nat.zero_mul]
    rfl
  limit := by decide
  mem p := by
    rw [if_neg (by omega)]
    rfl

/-- Whatever has been read, the next request is one that the BIOS can do. -/
theorem request_good {s : Loader} (hlow : 5 < sectors.toNat) (hhigh : sectors.toNat < 64)
    (hrun : Relation.ReflTransGen (Turn image sectors) (start mem) s) :
    (s.request (s.amount sectors)).Good sectors.toNat := by
  have hloaded : ∃ k, Loaded image sectors mem k s :=
    Lib.invariant_of_run (I := fun s => ∃ k, Loaded image sectors mem k s)
      (fun _ _ ⟨_, h⟩ hturn => (h.turn hlow hhigh hturn).imp fun _ h' => h'.2) ⟨0, start_loaded hlow⟩ hrun
  obtain ⟨k, h⟩ := hloaded
  exact (h.request hlow hhigh).1

/-- The system is in memory, and nothing else has changed. -/
def System (image : Nat → UInt8) (mem : Memory) (s : Loader) : Prop :=
  ∀ p, s.mem p =
    if 0x10000 ≤ p ∧ p < 0x10000 + 16 * sysSize.toNat then image (512 * (1 + setupLen) + (p - 0x10000)) else mem p

/-- Whichever of its reads fail at first, `read_it` comes to its end, and the system is in memory then, for
every number of sectors that a track can have. -/
theorem read_it_loads {image : Nat → UInt8} {sectors : BitVec 16} {mem : Memory} (hlow : 5 < sectors.toNat)
    (hhigh : sectors.toNat < 64) :
    Lib.Inevitable (Turn image sectors) (fun s => ¬ s.es < endSeg ∧ System image mem s) (start mem) := by
  have hend : ∀ s k, Loaded image sectors mem k s → k = 384 → ¬ s.es < endSeg ∧ System image mem s := by
    rintro s k h rfl
    exact ⟨fun hmore => absurd ((more_iff h).mp hmore) (Nat.lt_irrefl _), h.mem⟩
  refine Lib.Inevitable.of_measure (P := fun s => ∃ k, Loaded image sectors mem k s)
    (m := fun s => 2 ^ 32 - physical s.es s.bx) ?_ ?_ ⟨0, start_loaded hlow⟩
  · rintro s ⟨k, h⟩ hnot
    have hk : k < 384 := Nat.lt_of_le_of_ne h.limit fun heq => hnot (hend s k h heq)
    exact ⟨_, .read ((more_iff h).mpr hk) (.ok (h.request hlow hhigh).1)⟩
  · rintro s s' ⟨k, h⟩ hnot hturn
    obtain ⟨k', hlt, h'⟩ := h.turn hlow hhigh hturn
    have hlimit := h'.limit
    have hplace : physical s.es s.bx = 0x10000 + 512 * k := by
      unfold physical
      rw [h.es, h.bx]
      omega
    have hplace' : physical s'.es s'.bx = 0x10000 + 512 * k' := by
      unfold physical
      rw [h'.es, h'.bx]
      omega
    exact .inr ⟨⟨k', h'⟩, by omega⟩

end Loader

end Linux011.Boot
