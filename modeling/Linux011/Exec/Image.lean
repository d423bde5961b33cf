import Mathlib.Data.BitVec

/-!
# The header of an executable

`struct exec` of `a.out.h`, the checks of `do_execve` on it, and what becomes of its sizes: the limits
that `change_ldt` installs and the ends of the segments in the task structure. The sizes are unsigned, and
all sums are 32 bits wide.
-/

namespace Linux011.Exec

def pageSize : BitVec 32 := 4096
def blockSize : BitVec 32 := 1024
def maxArgPages : BitVec 32 := 32

def eNoexec : Int := 8
def eNomem : Int := 12

/-- `ZMAGIC` -/
def zmagic : BitVec 32 := 0o413

/-- `struct exec` -/
structure Header where
  aMagic : BitVec 32
  aText : BitVec 32
  aData : BitVec 32
  aBss : BitVec 32
  aSyms : BitVec 32
  aEntry : BitVec 32
  aTrsize : BitVec 32
  aDrsize : BitVec 32
deriving DecidableEq

/-- Word `k` of a block. -/
def word (data : Nat → BitVec 8) (k : Nat) : BitVec 32 :=
  data (4 * k + 3) ++ data (4 * k + 2) ++ data (4 * k + 1) ++ data (4 * k)

/-- `*((struct exec *) bh->b_data)` -/
def Header.read (data : Nat → BitVec 8) : Header :=
  ⟨word data 0, word data 1, word data 2, word data 3, word data 4, word data 5, word data 6, word data 7⟩

/-- `sizeof (struct exec)` -/
def headerSize : BitVec 32 := 32

/-- `_N_HDROFF`, where `SEGMENT_SIZE` is 1024 -/
def nHdroff : BitVec 32 := 1024 - headerSize

/-- `N_TXTOFF` -/
def nTxtoff (ex : Header) : BitVec 32 :=
  if ex.aMagic = zmagic then nHdroff + headerSize else headerSize

/-- The test of the header in `do_execve`. -/
def badHeader (ex : Header) (iSize : BitVec 32) : Bool :=
  ex.aMagic != zmagic || ex.aTrsize != 0 || ex.aDrsize != 0 ||
    decide (0x3000000 < ex.aText + ex.aData + ex.aBss) ||
    decide (iSize < ex.aText + ex.aData + ex.aSyms + nTxtoff ex)

/-- The limit in a segment descriptor whose unit is a page. -/
structure Limit where
  pages : BitVec 20
deriving DecidableEq

/-- How many bytes the segment has. -/
def Limit.bytes (l : Limit) : Nat := (l.pages.toNat + 1) * 4096

/-- `set_limit` -/
def setLimit (limit : BitVec 32) : Limit := ⟨((limit - 1) >>> 12).truncate 20⟩

/-- `change_ldt`: the limits of the code and the data segment, and the value it returns. Mapping the
argument pages is left out. -/
def changeLdt (textSize : BitVec 32) : Limit × Limit × BitVec 32 :=
  let codeLimit := (textSize + pageSize - 1) &&& 0xFFFFF000#32
  let dataLimit := 0x4000000#32
  (setLimit codeLimit, setLimit dataLimit, dataLimit)

/-- What `do_execve` leaves of the header in the task and in `eip`. `p` is where the strings begin. -/
structure Image where
  code : Limit
  data : Limit
  p : BitVec 32
  endCode : BitVec 32
  endData : BitVec 32
  brk : BitVec 32
  entry : BitVec 32
deriving DecidableEq

/-- `do_execve` after the point of no return. -/
def image (ex : Header) (p : BitVec 32) : Image :=
  let (code, data, dataLimit) := changeLdt ex.aText
  { code
    data
    p := p + dataLimit - maxArgPages * pageSize
    endCode := ex.aText
    endData := ex.aData + ex.aText
    brk := ex.aBss + (ex.aData + ex.aText)
    entry := ex.aEntry }

/-- `do_execve` for a binary, from the header on: `p` is what `copy_strings` gives, which copies nothing
when a script was started (`shBang`). -/
def execBinary (iSize : BitVec 32) (ex : Header) (shBang : Bool) (p : BitVec 32) : Except Int Image :=
  if badHeader ex iSize then .error (-eNoexec)
  else if nTxtoff ex ≠ blockSize then .error (-eNoexec)
  else if !shBang && p == 0 then .error (-eNomem)
  else .ok (image ex p)

/-- The program fits in the 64 MB of a task. -/
structure Image.Fits (im : Image) (ex : Header) : Prop where
  sum : ex.aText.toNat + ex.aData.toNat + ex.aBss.toNat ≤ 0x3000000
  code : im.code.bytes ≤ 0x4000000
  text : im.endCode ≤ im.endData
  data : im.endData ≤ im.brk

variable {iSize p : BitVec 32} {ex : Header} {shBang : Bool} {im : Image}

/-- A header that is accepted has passed the test of the sum. -/
theorem execBinary_ok (h : execBinary iSize ex shBang p = .ok im) :
    ex.aText + ex.aData + ex.aBss ≤ 0x3000000 ∧ im = image ex p := by
  unfold execBinary at h
  split at h
  · cases h
  · next hgood =>
    split at h
    · cases h
    · split at h
      · cases h
      · cases h
        simp only [badHeader, Bool.or_eq_true, not_or, decide_eq_true_eq] at hgood
        exact ⟨BitVec.not_lt.mp hgood.1.2, rfl⟩

theorem and_page (x : BitVec 32) : x &&& 0xFFFFF000#32 = (x >>> 12) <<< 12 := by
  have hmask : 0xFFFFF000#32 = BitVec.allOnes 32 <<< 12 := rfl
  rw [hmask]
  ext i hi
  simp only [BitVec.getElem_and, BitVec.getElem_shiftLeft, BitVec.getElem_allOnes]
  grind

/-- Rounding down to a page. -/
theorem toNat_and_page (x : BitVec 32) : (x &&& 0xFFFFF000#32).toNat = x.toNat / 4096 * 4096 := by
  rw [and_page, BitVec.toNat_shiftLeft, BitVec.toNat_ushiftRight, Nat.shiftRight_eq_div_pow,
    Nat.shiftLeft_eq, Nat.mod_eq_of_lt]
  have hlt := x.isLt
  omega

theorem setLimit_bytes (limit : BitVec 32) :
    (setLimit limit).bytes = ((limit.toNat + (2 ^ 32 - 1)) % 2 ^ 32 / 4096 + 1) * 4096 := by
  have hsub : (limit - 1).toNat = (limit.toNat + (2 ^ 32 - 1)) % 2 ^ 32 := by
    rw [BitVec.toNat_sub, Nat.add_comm]
    rfl
  unfold Limit.bytes setLimit
  rw [BitVec.toNat_setWidth, BitVec.toNat_ushiftRight, Nat.shiftRight_eq_div_pow, hsub, Nat.mod_eq_of_lt]
  omega

/-- The code segment of a program has the pages of its text. Without text it has all there are. -/
theorem code_bytes (h : ex.aText.toNat ≤ 0x3000000) :
    (image ex p).code.bytes = if ex.aText = 0 then 2 ^ 32 else (ex.aText.toNat + 4095) / 4096 * 4096 := by
  have hsum : (ex.aText + pageSize - 1).toNat = ex.aText.toNat + 4095 := by
    rw [BitVec.toNat_sub, BitVec.toNat_add]
    show (2 ^ 32 - 1 + (ex.aText.toNat + 4096) % 2 ^ 32) % 2 ^ 32 = _
    omega
  show (setLimit ((ex.aText + pageSize - 1) &&& 0xFFFFF000#32)).bytes = _
  rw [setLimit_bytes, toNat_and_page, hsum]
  split
  · next hzero =>
    rw [hzero]
    rfl
  · next hne =>
    have hpos : 0 < ex.aText.toNat := by
      rw [Nat.pos_iff_ne_zero]
      exact fun hz => hne (BitVec.eq_of_toNat_eq hz)
    omega

/-- A program that was accepted fits if and only if the sum of its sizes does not wrap and it has text. -/
theorem image_fits (h : execBinary iSize ex shBang p = .ok im) :
    im.Fits ex ↔ ex.aText.toNat + ex.aData.toNat + ex.aBss.toNat < 2 ^ 32 ∧ ex.aText ≠ 0 := by
  obtain ⟨hsum, rfl⟩ := execBinary_ok h
  rw [BitVec.le_def, BitVec.toNat_add, BitVec.toNat_add] at hsum
  change ((ex.aText.toNat + ex.aData.toNat) % 2 ^ 32 + ex.aBss.toNat) % 2 ^ 32 ≤ 0x3000000 at hsum
  constructor
  · rintro ⟨hfits, hcode, -, -⟩
    refine ⟨by omega, fun hzero => ?_⟩
    rw [code_bytes (by omega), if_pos hzero] at hcode
    omega
  · rintro ⟨hnowrap, htext⟩
    have hexact : ex.aText.toNat + ex.aData.toNat + ex.aBss.toNat ≤ 0x3000000 := by omega
    have hdata : (ex.aData + ex.aText).toNat = ex.aData.toNat + ex.aText.toNat := by
      rw [BitVec.toNat_add]
      omega
    refine ⟨hexact, ?_, ?_, ?_⟩
    · rw [code_bytes (by omega), if_neg htext]
      omega
    · show ex.aText ≤ ex.aData + ex.aText
      rw [BitVec.le_def, hdata]
      omega
    · show ex.aData + ex.aText ≤ ex.aBss + (ex.aData + ex.aText)
      rw [BitVec.le_def, BitVec.toNat_add ex.aBss, hdata]
      omega

/-- A text of 2 GB and data of 2 GB, and a program without text. -/
def wrapping : Header := ⟨zmagic, 0x80000000, 0x80000000, 0, 0, 0, 0, 0⟩
def textless : Header := ⟨zmagic, 0, 4096, 0, 0, 0, 0, 0⟩

/-- Both are accepted. The first gets a code segment of 2 GB and ends its data before its code; the second
gets a code segment of 4 GB. -/
theorem image_wraps : ∃ im im', execBinary 1024 wrapping false 0x1FFFC = .ok im ∧ ¬ im.Fits wrapping ∧
    im.code.bytes = 0x80000000 ∧ im.endData < im.endCode ∧
    execBinary 5120 textless false 0x1FFFC = .ok im' ∧ ¬ im'.Fits textless ∧ im'.code.bytes = 2 ^ 32 := by
  refine ⟨image wrapping 0x1FFFC, image textless 0x1FFFC, rfl, fun hfits => ?_, rfl, by decide, rfl,
    fun hfits => ?_, rfl⟩
  · exact absurd hfits.sum (by decide)
  · exact absurd hfits.code (by decide)

/-- One page of text and one of data. -/
theorem image_fits_small : ∃ im, execBinary 9216 ⟨zmagic, 4096, 4096, 0, 0, 0, 0, 0⟩ false 0x1FFFC = .ok im ∧
    im.Fits ⟨zmagic, 4096, 4096, 0, 0, 0, 0, 0⟩ := by
  have haccepted : execBinary 9216 ⟨zmagic, 4096, 4096, 0, 0, 0, 0, 0⟩ false 0x1FFFC =
      .ok (image ⟨zmagic, 4096, 4096, 0, 0, 0, 0, 0⟩ 0x1FFFC) := rfl
  exact ⟨_, haccepted, (image_fits haccepted).mpr ⟨by decide, by decide⟩⟩

end Linux011.Exec
