import Linux011.Exec.Image
import Linux011.Mm.Invariant

/-!
# The strings of a new program

`copy_strings` of `fs/exec.c`, and the calls that `do_execve` makes of it. The strings are laid from
`p` downwards into at most 32 pages, the last one first. What the user has in memory is an argument of
the model: a call gets its strings as lists of bytes.

`p` is unsigned, so that the test of `p-len` never fails, and a call that goes on below `p = 0` leaves
the array of pages.
-/

namespace Linux011.Exec

open Linux011.Mm

/-- A string, without the zero that ends it. -/
structure CStr where
  bytes : List UInt8
  nonzero : ∀ b ∈ bytes, b ≠ 0

/-- The string as it lies in memory. -/
def CStr.laid (s : CStr) : List UInt8 := s.bytes ++ [0]

/-- What `fs` selects. -/
inductive Seg where
  | user
  | kernel
deriving DecidableEq

/-- `page` and `p` of `do_execve`, with the memory. A page that is not there is `0` in the source. -/
structure Args where
  mem : Mem
  page : Nat → Option Nat
  p : BitVec 32
  fs : Seg

/-- The local variables of a call besides. -/
structure Cursor extends Args where
  offset : Int
  pag : Nat

/-- How a call ends early: at `page[k]` with `k ≥ 32`, in a panic, or with the result 0. -/
inductive CopyStop where
  | outOfRange
  | panic (msg : String)
  | short (s : Args)

namespace Cursor

/-- `*(pag + offset) = b` -/
def put (c : Cursor) (b : UInt8) : Cursor :=
  { c with mem := c.mem.setPage c.pag (Function.update (c.mem.page c.pag) c.offset.toNat b) }

/-- The page of `p`, which is taken if it is not there. -/
def findPage (oldFs : Seg) (kmem : Nat) (c : Cursor) : Except CopyStop Cursor :=
  let offset := (c.p % pageSize).toNat
  let fs := if kmem = 2 then .kernel else c.fs
  if maxArgPages ≤ c.p / pageSize then .error .outOfRange
  else
    match c.page (c.p / pageSize).toNat with
    | some f => .ok { c with fs, offset, pag := f }
    | none =>
      match getFreePage c.mem with
      | (none, mem) => .error (.short { c.toArgs with mem, fs := if kmem = 2 then oldFs else c.fs })
      | (some f, mem) =>
        .ok { c with mem, fs, offset, page := Function.update c.page (c.p / pageSize).toNat (some f), pag := f }

/-- One turn of the inner loop. -/
def copyByte (oldFs : Seg) (kmem : Nat) (c : Cursor) (b : UInt8) : Except CopyStop Cursor := do
  let c := { c with p := c.p - 1, offset := c.offset - 1 }
  let c ← if c.offset < 0 then c.findPage oldFs kmem else .ok c
  return c.put b

/-- The loop over the strings, with `argc` still to come. For strings of the user whose table is in the
kernel, `fs` is the kernel's while the table is read. -/
def copyLoop (oldFs : Seg) (kmem : Nat) (argv : List CStr) : (argc : Nat) → Cursor → Except CopyStop Cursor
  | 0, c => .ok c
  | argc + 1, c =>
    match argv[argc]? with
    | none => .error (.panic "argc is wrong")
    | some tmp =>
      let c := if kmem = 1 then { c with fs := oldFs } else c
      if c.p - BitVec.ofNat 32 tmp.laid.length < 0 then .error (.short { c.toArgs with fs := oldFs })
      else do
        let c ← tmp.laid.reverse.foldlM (copyByte oldFs kmem) c
        copyLoop oldFs kmem argv argc c

end Cursor

/-- A call: `argc`, `argv` and `from_kmem`. -/
structure Copy where
  argc : Int
  argv : List CStr
  fromKmem : Nat

namespace Args

/-- `p = copy_strings(argc,argv,page,p,from_kmem)` -/
def copyStrings (s : Args) (call : Copy) : Except CopyStop Args :=
  if s.p = 0 then .ok s
  else
    let fs := if call.fromKmem = 2 then .kernel else s.fs
    match Cursor.copyLoop s.fs call.fromKmem call.argv call.argc.toNat { s with fs, offset := 0, pag := 0 } with
    | .ok c => .ok { c.toArgs with fs := if call.fromKmem = 2 then s.fs else c.fs }
    | .error (.short s') => .ok { s' with p := 0 }
    | .error e => .error e

/-- The calls that `do_execve` makes, and the test of `p` after them. -/
def layStrings (s : Args) (calls : List Copy) : Except CopyStop (Except Int (BitVec 32) × Args) := do
  let s ← calls.foldlM copyStrings s
  if s.p = 0 then return (.error (-eNomem), s) else return (.ok s.p, s)

end Args

/-- `PAGE_SIZE*MAX_ARG_PAGES-4`, where `p` starts -/
def argTop : Nat := 131068

/-- `page` and `p` at the start of `do_execve`. -/
def Args.start (mem : Mem) (fs : Seg) : Args := ⟨mem, fun _ => none, BitVec.ofNat 32 argTop, fs⟩

/-- The strings one after the other. -/
def flat (argv : List CStr) : List UInt8 := argv.flatMap CStr.laid

/-- The number of pages in which the last `n` bytes below the start of `p` lie. -/
def pagesFor (n : Nat) : Nat := if n = 0 then 0 else 32 - (argTop - n) / 4096

def freePages (mem : Mem) : Nat := ((Finset.range pagingPages).filter fun nr => mem.memMap nr = 0).card

/-- What the calls lay, from the lowest address up. -/
def laidBy (calls : List Copy) : List UInt8 := calls.reverse.flatMap fun call => flat call.argv

def size (calls : List Copy) : Nat := (laidBy calls).length

/-- With `room` bytes below `p`, a call goes on below `p = 0`. -/
def Overruns : (room : Nat) → List Copy → Prop
  | _, [] => False
  | room, call :: calls =>
    room ≠ 0 ∧ (room < (flat call.argv).length ∨ Overruns (room - (flat call.argv).length) calls)

/-! ## Pages that are taken -/

/-- What a page that is taken does to the counts. -/
structure Took (mem : Mem) (f : Nat) (mem' : Mem) : Prop where
  main : lowMem ≤ f ∧ mapNr f < pagingPages
  free : mem.memMap (mapNr f) = 0
  count : mem'.memMap = Function.update mem.memMap (mapNr f) 1
  page : mem'.page = Function.update mem.page f fun _ => 0
  high : mem'.highMemory = mem.highMemory
  left : freePages mem' + 1 = freePages mem

theorem getFreePage_cases (mem : Mem) : (getFreePage mem = (none, mem) ∧ freePages mem = 0) ∨
    ∃ f mem', getFreePage mem = (some f, mem') ∧ Took mem f mem' := by
  unfold getFreePage
  cases hscan : scanFree mem.memMap pagingPages with
  | none =>
    refine .inl ⟨rfl, ?_⟩
    apply Finset.card_eq_zero.mpr
    apply Finset.filter_eq_empty_iff.mpr
    intro nr hnr
    exact scanFree_none hscan nr (Finset.mem_range.mp hnr)
  | some nr =>
    obtain ⟨hnr, hzero⟩ := scanFree_some hscan
    have hmap : mapNr (nr + lowMem) = nr := Nat.add_sub_cancel ..
    refine .inr ⟨nr + lowMem, _, rfl, ⟨⟨Nat.le_add_left .., by rw [hmap]; exact hnr⟩, by rw [hmap]; exact hzero,
      by rw [hmap], rfl, rfl, ?_⟩⟩
    have hmem : nr ∈ (Finset.range pagingPages).filter fun nr => mem.memMap nr = 0 :=
      Finset.mem_filter.mpr ⟨Finset.mem_range.mpr hnr, hzero⟩
    have herase : ((Finset.range pagingPages).filter fun i => Function.update mem.memMap nr 1 i = 0) =
        ((Finset.range pagingPages).filter fun i => mem.memMap i = 0).erase nr := by
      ext i
      by_cases hi : i = nr
      · subst hi
        simp
      · simp [hi]
    show (Finset.card _) + 1 = _
    rw [herase]
    exact Finset.card_erase_add_one hmem

/-- The pages of the strings were free before. -/
structure Held (mem₀ : Mem) (s : Args) : Prop where
  taken : ∀ k f, s.page k = some f → k < 32 ∧ lowMem ≤ f ∧ mapNr f < pagingPages ∧
    mem₀.memMap (mapNr f) = 0 ∧ s.mem.memMap (mapNr f) = 1
  inj : ∀ k l f, s.page k = some f → s.page l = some f → k = l
  others : ∀ nr, (∀ k, s.page k ≠ some (nr + lowMem)) → s.mem.memMap nr = mem₀.memMap nr
  high : s.mem.highMemory = mem₀.highMemory

/-- The bytes `L` are laid. -/
structure Laid (mem₀ : Mem) (L : List UInt8) (s : Args) : Prop extends Held mem₀ s where
  room : s.p.toNat + L.length = argTop
  pages : ∀ k, (∃ f, s.page k = some f) ↔ L ≠ [] ∧ s.p.toNat / 4096 ≤ k ∧ k < 32
  bytes : ∀ i (h : i < L.length), ∃ f, s.page ((s.p.toNat + i) / 4096) = some f ∧
    s.mem.page f ((s.p.toNat + i) % 4096) = L[i]
  left : freePages s.mem + pagesFor L.length = freePages mem₀

variable {mem₀ : Mem} {L : List UInt8} {s : Args} {fs : Seg}

theorem pagesFor_zero : pagesFor 0 = 0 := if_pos rfl

theorem start_p : (Args.start mem₀ fs).p.toNat = argTop := by
  show (BitVec.ofNat 32 argTop).toNat = argTop
  rw [BitVec.toNat_ofNat]
  exact Nat.mod_eq_of_lt (by decide)

theorem laid_start : Laid mem₀ [] (Args.start mem₀ fs) := by
  have hroom : (Args.start mem₀ fs).p.toNat + ([] : List UInt8).length = argTop := by
    rw [start_p, List.length_nil, Nat.add_zero]
  refine ⟨⟨fun k f h => (by cases h), fun k l f h => (by cases h), fun nr _ => rfl, rfl⟩, hroom,
    fun k => ?_, fun i h => absurd h (Nat.not_lt_zero i), ?_⟩
  · constructor
    · rintro ⟨f, hf⟩
      cases hf
    · rintro ⟨hne, -⟩
      exact absurd rfl hne
  · rw [List.length_nil, pagesFor_zero, Nat.add_zero]
    rfl

theorem pagesFor_succ {n : Nat} (hn : n < argTop) :
    pagesFor (n + 1) = if n = 0 ∨ (argTop - n) % 4096 = 0 then pagesFor n + 1 else pagesFor n := by
  unfold argTop at *
  unfold pagesFor argTop
  rw [if_neg (Nat.succ_ne_zero n)]
  by_cases hzero : n = 0
  · subst hzero
    rfl
  · rw [if_neg hzero]
    split <;> omega

theorem pagesFor_mono {m n : Nat} (h : m ≤ n) (hn : n ≤ argTop) : pagesFor m ≤ pagesFor n := by
  unfold pagesFor argTop at *
  split <;> split <;> omega

/-- A page that the strings do not have is needed for the next byte exactly at the start and below a
boundary. -/
theorem Laid.fresh (h : Laid mem₀ L s) (hp : 0 < s.p.toNat) :
    s.page ((s.p.toNat - 1) / 4096) = none ↔ L.length = 0 ∨ s.p.toNat % 4096 = 0 := by
  have hroom := h.room
  have hlt : (s.p.toNat - 1) / 4096 < 32 := by
    unfold argTop at hroom
    omega
  have hpages := h.pages ((s.p.toNat - 1) / 4096)
  have hnone : s.page ((s.p.toNat - 1) / 4096) = none ↔
      ¬ ∃ f, s.page ((s.p.toNat - 1) / 4096) = some f := by
    rw [← Option.isSome_iff_exists, Option.not_isSome_iff_eq_none]
  rw [hnone, hpages, List.length_eq_zero_iff]
  by_cases hL : L = []
  · simp [hL]
  · simp only [hL, ne_eq, not_false_eq_true, true_and, false_or, hlt, and_true]
    omega

/-! ## One byte -/

theorem toNat_pred {p : BitVec 32} (hp : 0 < p.toNat) : (p - 1).toNat = p.toNat - 1 := by
  rw [BitVec.toNat_sub]
  show (2 ^ 32 - 1 + p.toNat) % 2 ^ 32 = p.toNat - 1
  have hlt := p.isLt
  omega

theorem toNat_page {p : BitVec 32} : (p / pageSize).toNat = p.toNat / 4096 := BitVec.toNat_udiv ..

theorem toNat_offset {p : BitVec 32} : (p % pageSize).toNat = p.toNat % 4096 := BitVec.toNat_umod ..

theorem outOfRange_iff {p : BitVec 32} : maxArgPages ≤ p / pageSize ↔ 32 ≤ p.toNat / 4096 := by
  rw [BitVec.le_def, toNat_page]
  rfl

/-- A byte goes where there is a page for it. -/
theorem laid_put {f : Nat} {b : UInt8} (hheld : Held mem₀ s) (hroom : s.p.toNat + L.length = argTop)
    (hpos : 0 < s.p.toNat)
    (hpages : ∀ k, (∃ f, s.page k = some f) ↔ (s.p.toNat - 1) / 4096 ≤ k ∧ k < 32)
    (hbytes : ∀ i (h : i < L.length), ∃ f, s.page ((s.p.toNat + i) / 4096) = some f ∧
      s.mem.page f ((s.p.toNat + i) % 4096) = L[i])
    (hleft : freePages s.mem + pagesFor (L.length + 1) = freePages mem₀)
    (hf : s.page ((s.p.toNat - 1) / 4096) = some f) :
    Laid mem₀ (b :: L) { s with
      p := s.p - 1
      mem := s.mem.setPage f (Function.update (s.mem.page f) ((s.p.toNat - 1) % 4096) b) } := by
  refine ⟨⟨hheld.taken, hheld.inj, hheld.others, hheld.high⟩, ?_, fun k => ?_, fun i hi => ?_, hleft⟩
  · show (s.p - 1).toNat + (L.length + 1) = argTop
    rw [toNat_pred hpos]
    omega
  · show (∃ f, s.page k = some f) ↔ _ ∧ (s.p - 1).toNat / 4096 ≤ k ∧ k < 32
    rw [toNat_pred hpos, hpages k]
    exact (and_iff_right (List.cons_ne_nil b L)).symm
  · show ∃ g, s.page (((s.p - 1).toNat + i) / 4096) = some g ∧
      Function.update s.mem.page f (Function.update (s.mem.page f) ((s.p.toNat - 1) % 4096) b) g
        (((s.p - 1).toNat + i) % 4096) = (b :: L)[i]
    rw [toNat_pred hpos]
    cases i with
    | zero => exact ⟨f, hf, by simp⟩
    | succ i =>
      have hsame : s.p.toNat - 1 + (i + 1) = s.p.toNat + i := by omega
      rw [hsame]
      have hi : i < L.length := Nat.lt_of_succ_lt_succ hi
      obtain ⟨g, hg, hbyte⟩ := hbytes i hi
      refine ⟨g, hg, ?_⟩
      by_cases hgf : g = f
      · -- another offset in the same page
        subst hgf
        have hk := hheld.inj _ _ _ hg hf
        rw [Function.update_self, Function.update_of_ne (by omega), hbyte]
        rfl
      · rw [Function.update_of_ne hgf, hbyte]
        rfl

theorem Took.others {mem mem' : Mem} {f : Nat} (h : Took mem f mem') {nr : Nat} (hnr : nr + lowMem ≠ f) :
    mem'.memMap nr = mem.memMap nr := by
  rw [h.count]
  refine Function.update_of_ne (fun heq => hnr ?_) _ _
  rw [heq, mapNr, Nat.sub_add_cancel h.main.1]

/-- The page for the next byte is taken. -/
theorem Laid.take (h : Laid mem₀ L s) {k f : Nat} {mem : Mem} (hk : k < 32) (hnone : s.page k = none)
    (ht : Took s.mem f mem) :
    Held mem₀ { s with mem, page := Function.update s.page k (some f) } ∧
    ∀ i (hi : i < L.length), ∃ g, Function.update s.page k (some f) ((s.p.toNat + i) / 4096) = some g ∧
      mem.page g ((s.p.toNat + i) % 4096) = L[i] := by
  -- the new page was free, and the others were not
  have hne : ∀ l g, s.page l = some g → g ≠ f := by
    rintro l g hg rfl
    have htaken := (h.taken l g hg).2.2.2.2
    rw [ht.free] at htaken
    cases htaken
  have hmap : ∀ l g, s.page l = some g → mapNr g ≠ mapNr f := by
    intro l g hg heq
    have hg' := (h.taken l g hg).2.1
    have hf' := ht.main.1
    unfold mapNr at heq
    exact hne l g hg (by omega)
  have hfree : mem₀.memMap (mapNr f) = 0 := by
    rw [← h.others, ht.free]
    intro l hl
    rw [mapNr, Nat.sub_add_cancel ht.main.1] at hl
    exact hne l f hl rfl
  refine ⟨⟨fun l g hg => ?_, fun l l' g hg hg' => ?_, fun nr hnr => ?_, ht.high.trans h.high⟩,
    fun i hi => ?_⟩
  · change Function.update s.page k (some f) l = some g at hg
    show l < 32 ∧ lowMem ≤ g ∧ mapNr g < pagingPages ∧ mem₀.memMap (mapNr g) = 0 ∧ mem.memMap (mapNr g) = 1
    rw [ht.count]
    by_cases hl : l = k
    · subst hl
      rw [Function.update_self] at hg
      cases hg
      exact ⟨hk, ht.main.1, ht.main.2, hfree, Function.update_self ..⟩
    · rw [Function.update_of_ne hl] at hg
      obtain ⟨hlt, hlow, hmax, hzero, hone⟩ := h.taken l g hg
      exact ⟨hlt, hlow, hmax, hzero, by rw [Function.update_of_ne (hmap l g hg), hone]⟩
  · change Function.update s.page k (some f) l = some g at hg
    change Function.update s.page k (some f) l' = some g at hg'
    by_cases hl : l = k <;> by_cases hl' : l' = k
    · rw [hl, hl']
    · rw [hl, Function.update_self] at hg
      rw [Function.update_of_ne hl'] at hg'
      cases hg
      exact absurd rfl (hne l' _ hg')
    · rw [hl', Function.update_self] at hg'
      rw [Function.update_of_ne hl] at hg
      cases hg'
      exact absurd rfl (hne l _ hg)
    · rw [Function.update_of_ne hl] at hg
      rw [Function.update_of_ne hl'] at hg'
      exact h.inj l l' g hg hg'
  · have hself : nr + lowMem ≠ f := by
      rintro rfl
      exact hnr k (Function.update_self ..)
    show mem.memMap nr = _
    rw [ht.others hself]
    refine h.others nr fun l hl => ?_
    have hlk : l ≠ k := by
      rintro rfl
      rw [hnone] at hl
      cases hl
    exact hnr l ((Function.update_of_ne hlk ..).trans hl)
  · obtain ⟨g, hg, hbyte⟩ := h.bytes i hi
    have hik : (s.p.toNat + i) / 4096 ≠ k := by
      intro heq
      rw [heq, hnone] at hg
      cases hg
    refine ⟨g, by rw [Function.update_of_ne hik, hg], ?_⟩
    rw [ht.page, Function.update_of_ne (hne _ g hg), hbyte]

/-- `fs` inside a call. -/
def callFs (oldFs : Seg) (kmem : Nat) : Seg := if kmem = 2 then .kernel else oldFs

/-- Between two bytes: the page of `p` is at hand, or has to be found for the next byte. -/
structure Cursor.Ready (oldFs : Seg) (kmem : Nat) (c : Cursor) : Prop where
  fs : c.fs = callFs oldFs kmem
  page : c.offset = 0 ∨ (c.offset = (c.p.toNat % 4096 : Nat) ∧ c.page (c.p.toNat / 4096) = some c.pag)

variable {c : Cursor} {oldFs : Seg} {kmem : Nat} {b : UInt8}

/-- The cursor after a byte for which there is a page. -/
theorem ready_put {f : Nat} (hpos : 0 < s.p.toNat)
    (hlaid : Laid mem₀ (b :: L) { s with
      p := s.p - 1
      mem := s.mem.setPage f (Function.update (s.mem.page f) ((s.p.toNat - 1) % 4096) b) })
    (hf : s.page ((s.p.toNat - 1) / 4096) = some f) :
    let c' : Cursor := ⟨⟨s.mem, s.page, s.p - 1, callFs oldFs kmem⟩, ((s.p.toNat - 1) % 4096 : Nat), f⟩
    Laid mem₀ (b :: L) (c'.put b).toArgs ∧ (c'.put b).Ready oldFs kmem := by
  refine ⟨⟨⟨hlaid.taken, hlaid.inj, hlaid.others, hlaid.high⟩, hlaid.room, hlaid.pages, hlaid.bytes, hlaid.left⟩,
    rfl, .inr ⟨?_, ?_⟩⟩
  · show (((s.p.toNat - 1) % 4096 : Nat) : Int) = ((s.p - 1).toNat % 4096 : Nat)
    rw [toNat_pred hpos]
  · show s.page ((s.p - 1).toNat / 4096) = some f
    rw [toNat_pred hpos, hf]

/-- The page that the next byte needs. -/
theorem Laid.pages_succ (h : Laid mem₀ L s) (hpos : 0 < s.p.toNat) :
    (s.page ((s.p.toNat - 1) / 4096) = none → pagesFor (L.length + 1) = pagesFor L.length + 1) ∧
    ∀ f, s.page ((s.p.toNat - 1) / 4096) = some f → pagesFor (L.length + 1) = pagesFor L.length := by
  have hroom := h.room
  have hfresh := h.fresh hpos
  rw [pagesFor_succ (by omega), show argTop - L.length = s.p.toNat by omega]
  refine ⟨fun hk => if_pos (hfresh.mp hk), fun f hk => if_neg fun hor => ?_⟩
  rw [hfresh.mpr hor] at hk
  cases hk

/-- The pages behind a byte that is laid. -/
theorem Laid.pages_below (h : Laid mem₀ L s) (hpos : 0 < s.p.toNat) {page : Nat → Option Nat} {f : Nat}
    (hpage : page = s.page ∨ page = Function.update s.page ((s.p.toNat - 1) / 4096) (some f))
    (hf : page ((s.p.toNat - 1) / 4096) = some f) (k : Nat) :
    (∃ g, page k = some g) ↔ (s.p.toNat - 1) / 4096 ≤ k ∧ k < 32 := by
  have hroom := h.room
  have hpages := h.pages k
  unfold argTop at hroom
  by_cases hk : k = (s.p.toNat - 1) / 4096
  · subst hk
    exact iff_of_true ⟨f, hf⟩ ⟨le_rfl, by omega⟩
  · have hsame : page k = s.page k := by
      rcases hpage with rfl | rfl
      · rfl
      · exact Function.update_of_ne hk ..
    rw [hsame, hpages]
    have hlen : L ≠ [] ↔ L.length ≠ 0 := not_congr List.length_eq_zero_iff.symm
    rw [hlen]
    constructor
    · rintro ⟨-, hle, hlt⟩
      omega
    · rintro ⟨hle, hlt⟩
      exact ⟨by omega, by omega, hlt⟩

theorem copyByte_empty (hr : c.Ready oldFs kmem) (hp : c.p.toNat = 0) :
    c.copyByte oldFs kmem b = .error .outOfRange := by
  have hzero : c.p = 0 := BitVec.eq_of_toNat_eq hp
  have hoffset : c.offset = 0 := by
    rcases hr.page with hoff | ⟨hoff, -⟩
    · exact hoff
    · rw [hoff, hp]
      rfl
  have hlookup : ({ c with p := c.p - 1, offset := c.offset - 1 } : Cursor).findPage oldFs kmem =
      .error .outOfRange := by
    unfold Cursor.findPage
    dsimp only
    rw [hzero]
    exact if_pos (by decide)
  unfold Cursor.copyByte
  dsimp only
  rw [if_pos (by omega), hlookup]
  rfl

theorem copyByte_spec (h : Laid mem₀ L c.toArgs) (hr : c.Ready oldFs kmem) (hpos : 0 < c.p.toNat) :
    if pagesFor (L.length + 1) ≤ freePages mem₀ then
      ∃ c', c.copyByte oldFs kmem b = .ok c' ∧ Laid mem₀ (b :: L) c'.toArgs ∧ c'.Ready oldFs kmem
    else ∃ s', c.copyByte oldFs kmem b = .error (.short s') ∧ Held mem₀ s' ∧ s'.fs = oldFs := by
  have hroom := h.room
  have hleft := h.left
  obtain ⟨hsuccNone, hsuccSome⟩ := h.pages_succ hpos
  have hk : (c.p.toNat - 1) / 4096 < 32 := by
    unfold argTop at hroom
    omega
  unfold Cursor.copyByte
  dsimp only
  by_cases hoff : c.offset - 1 < 0
  · -- the page of the byte is looked up
    have hrange : ¬ maxArgPages ≤ (c.p - 1) / pageSize := by
      rw [outOfRange_iff, toNat_pred hpos]
      omega
    have hcallFs : (if kmem = 2 then Seg.kernel else c.fs) = callFs oldFs kmem := by
      rw [hr.fs]
      unfold callFs
      split <;> rfl
    rw [if_pos hoff]
    unfold Cursor.findPage
    dsimp only
    rw [if_neg hrange, toNat_page, toNat_offset, toNat_pred hpos, hcallFs]
    cases hpage : c.page ((c.p.toNat - 1) / 4096) with
    | some f =>
      have hsucc := hsuccSome f hpage
      rw [if_pos (by omega)]
      have hlaid := laid_put (b := b) h.toHeld hroom hpos (h.pages_below hpos (.inl rfl) hpage) h.bytes
        (by rw [hsucc]; exact hleft) hpage
      exact ⟨_, rfl, ready_put hpos hlaid hpage⟩
    | none =>
      have hsucc := hsuccNone hpage
      rcases getFreePage_cases c.mem with ⟨hget, hzero⟩ | ⟨f, mem, hget, htook⟩
      · rw [if_neg (by omega), hget]
        refine ⟨_, rfl, ⟨h.taken, h.inj, h.others, h.high⟩, ?_⟩
        show (if kmem = 2 then oldFs else c.fs) = oldFs
        rw [hr.fs, callFs]
        split <;> rfl
      · have htaken := htook.left
        rw [if_pos (by omega), hget]
        obtain ⟨hheld, hbytes⟩ := h.take hk hpage htook
        have hself : Function.update c.page ((c.p.toNat - 1) / 4096) (some f) ((c.p.toNat - 1) / 4096) =
            some f := Function.update_self ..
        have hlaid := laid_put (b := b) hheld hroom hpos (h.pages_below hpos (.inr rfl) hself) hbytes
          (by rw [hsucc]; show freePages mem + _ = _; omega) hself
        exact ⟨_, rfl, ready_put (s := { c.toArgs with
          mem, page := Function.update c.page ((c.p.toNat - 1) / 4096) (some f) }) hpos hlaid hself⟩
  · -- the byte lies in the page at hand
    obtain ⟨hmod, hpage⟩ : c.offset = (c.p.toNat % 4096 : Nat) ∧ c.page (c.p.toNat / 4096) = some c.pag := by
      rcases hr.page with hzero | hat
      · omega
      · exact hat
    have hmod_pos : 0 < c.p.toNat % 4096 := by omega
    rw [show c.p.toNat / 4096 = (c.p.toNat - 1) / 4096 by omega] at hpage
    have hsucc := hsuccSome c.pag hpage
    rw [if_pos (by omega), if_neg hoff]
    have hlaid := laid_put (b := b) h.toHeld hroom hpos (h.pages_below hpos (.inl rfl) hpage) h.bytes
      (by rw [hsucc]; exact hleft) hpage
    have hoffset : c.offset - 1 = ((c.p.toNat - 1) % 4096 : Nat) := by omega
    rw [hoffset, hr.fs]
    exact ⟨_, rfl, ready_put hpos hlaid hpage⟩

/-! ## Strings -/

/-- How the copying of bytes ends. -/
inductive Verdict where
  | fits
  | overruns
  | short
deriving DecidableEq

/-- With `n` bytes laid at the end, and `free` pages at the start. -/
def verdict (n free : Nat) : Verdict :=
  if n ≤ argTop ∧ pagesFor n ≤ free then .fits
  else if argTop < n ∧ 32 ≤ free then .overruns
  else .short

theorem pagesFor_le {n : Nat} : pagesFor n ≤ 32 := by
  unfold pagesFor
  split <;> omega

theorem verdict_fits {n free : Nat} : verdict n free = .fits ↔ n ≤ argTop ∧ pagesFor n ≤ free := by
  unfold verdict
  split
  · next h => exact iff_of_true rfl h
  · next h =>
    refine iff_of_false ?_ h
    split <;> exact Verdict.noConfusion

theorem verdict_overruns {n free : Nat} : verdict n free = .overruns ↔ argTop < n ∧ 32 ≤ free := by
  unfold verdict
  split
  · next h => exact iff_of_false Verdict.noConfusion fun h' => by omega
  · split
    · next h => exact iff_of_true rfl h
    · next h => exact iff_of_false Verdict.noConfusion h

theorem verdict_short {n free : Nat} :
    verdict n free = .short ↔ free < 32 ∧ (n ≤ argTop → free < pagesFor n) := by
  have hle := @pagesFor_le n
  unfold verdict
  split
  · next h => exact iff_of_false Verdict.noConfusion fun h' => by omega
  · split
    · next h => exact iff_of_false Verdict.noConfusion fun h' => by omega
    · next h => exact iff_of_true rfl ⟨by omega, by omega⟩

/-- More bytes do not help. -/
theorem verdict_mono {m n free : Nat} (hmn : m ≤ n) :
    (verdict m free = .overruns → verdict n free = .overruns) ∧
    (verdict m free = .short → verdict n free = .short) := by
  rw [verdict_overruns, verdict_overruns, verdict_short, verdict_short]
  refine ⟨fun ⟨hlt, hfree⟩ => ⟨Nat.lt_of_lt_of_le hlt hmn, hfree⟩, fun ⟨hfree, hpages⟩ => ⟨hfree, fun hn => ?_⟩⟩
  exact Nat.lt_of_lt_of_le (hpages (Nat.le_trans hmn hn)) (pagesFor_mono hmn hn)

/-- What becomes of the bytes `M`, which are to be laid below `L`. -/
def Copied (mem₀ : Mem) (L M : List UInt8) (oldFs : Seg) (kmem : Nat) (x : Except CopyStop Cursor) : Prop :=
  match verdict (L.length + M.length) (freePages mem₀) with
  | .fits => ∃ c, x = .ok c ∧ Laid mem₀ (M ++ L) c.toArgs ∧ c.Ready oldFs kmem
  | .overruns => x = .error .outOfRange
  | .short => ∃ s, x = .error (.short s) ∧ Held mem₀ s ∧ s.fs = oldFs

theorem copied_nil (h : Laid mem₀ L c.toArgs) (hr : c.Ready oldFs kmem) :
    Copied mem₀ L [] oldFs kmem (.ok c) := by
  have hroom := h.room
  have hleft := h.left
  have hfits : verdict (L.length + ([] : List UInt8).length) (freePages mem₀) = .fits := by
    rw [verdict_fits, List.length_nil, Nat.add_zero]
    omega
  unfold Copied
  rw [hfits]
  exact ⟨c, rfl, h, hr⟩

/-- First the bytes `N`, and then, below them, the bytes `M`. -/
theorem copied_append {M N : List UInt8} {x : Except CopyStop Cursor} {f : Cursor → Except CopyStop Cursor}
    (hx : Copied mem₀ L N oldFs kmem x)
    (hf : ∀ c, Laid mem₀ (N ++ L) c.toArgs → c.Ready oldFs kmem → Copied mem₀ (N ++ L) M oldFs kmem (f c)) :
    Copied mem₀ L (M ++ N) oldFs kmem (x >>= f) := by
  have hlen : L.length + (M ++ N).length = (N ++ L).length + M.length := by
    rw [List.length_append, List.length_append]
    omega
  have hle : L.length + N.length ≤ L.length + (M ++ N).length := by
    rw [List.length_append]
    omega
  obtain ⟨hover, hshort⟩ := @verdict_mono _ _ (freePages mem₀) hle
  unfold Copied at hx
  cases hverdict : verdict (L.length + N.length) (freePages mem₀) with
  | fits =>
    rw [hverdict] at hx
    obtain ⟨c, rfl, hlaid, hready⟩ := hx
    have hnext := hf c hlaid hready
    unfold Copied at hnext ⊢
    rw [hlen, List.append_assoc]
    exact hnext
  | overruns =>
    rw [hverdict] at hx
    unfold Copied
    rw [hover hverdict, hx]
    rfl
  | short =>
    rw [hverdict] at hx
    obtain ⟨s, rfl, hheld, hfs⟩ := hx
    unfold Copied
    rw [hshort hverdict]
    exact ⟨s, rfl, hheld, hfs⟩

theorem copied_byte (h : Laid mem₀ L c.toArgs) (hr : c.Ready oldFs kmem) :
    Copied mem₀ L [b] oldFs kmem (c.copyByte oldFs kmem b) := by
  have hroom := h.room
  have hleft := h.left
  unfold Copied
  rw [List.length_singleton]
  by_cases hp : c.p.toNat = 0
  · have hover : verdict (L.length + 1) (freePages mem₀) = .overruns := by
      have hfull : pagesFor argTop = 32 := rfl
      have hlen : L.length = argTop := by omega
      rw [hlen, hfull] at hleft
      rw [verdict_overruns]
      omega
    rw [hover]
    exact copyByte_empty hr hp
  · have hspec := copyByte_spec (b := b) h hr (Nat.pos_of_ne_zero hp)
    have hle : L.length + 1 ≤ argTop := by omega
    split at hspec
    · next hpages =>
      rw [verdict_fits.mpr ⟨hle, hpages⟩]
      exact hspec
    · next hpages =>
      have hmax := @pagesFor_le (L.length + 1)
      rw [verdict_short.mpr ⟨by omega, fun _ => by omega⟩]
      exact hspec

/-- The inner loop, over a string from its end. -/
theorem copied_bytes (N : List UInt8) : ∀ {L : List UInt8} {c : Cursor}, Laid mem₀ L c.toArgs →
    c.Ready oldFs kmem → Copied mem₀ L N.reverse oldFs kmem (N.foldlM (Cursor.copyByte oldFs kmem) c) := by
  induction N with
  | nil => exact fun h hr => copied_nil h hr
  | cons b N ih =>
    intro L c h hr
    rw [List.reverse_cons, List.foldlM_cons]
    exact copied_append (copied_byte h hr) fun c' h' hr' => ih h' hr'

theorem copied_loop {argv : List CStr} (n : Nat) (hn : n ≤ argv.length) :
    ∀ {L : List UInt8} {c : Cursor}, Laid mem₀ L c.toArgs → c.Ready oldFs kmem →
      Copied mem₀ L (flat (argv.take n)) oldFs kmem (c.copyLoop oldFs kmem argv n) := by
  induction n with
  | zero => exact fun h hr => copied_nil h hr
  | succ n ih =>
    intro L c h hr
    have hlt : n < argv.length := hn
    have htake : flat (argv.take (n + 1)) = flat (argv.take n) ++ argv[n].laid := by
      unfold flat
      rw [List.take_succ_eq_append_getElem hlt, List.flatMap_append, List.flatMap_singleton]
    have hfs : (if kmem = 1 then { c with fs := oldFs } else c) = c := by
      split
      · next hone =>
        have hsame : c.fs = oldFs := by
          rw [hr.fs, callFs, if_neg (by omega)]
        rw [← hsame]
      · rfl
    have hbytes := @copied_bytes mem₀ oldFs kmem argv[n].laid.reverse L c h hr
    rw [List.reverse_reverse] at hbytes
    rw [htake]
    unfold Cursor.copyLoop
    rw [List.getElem?_eq_getElem hlt]
    dsimp only
    -- `p-len < 0` is never true
    have hnever : ¬ c.p - BitVec.ofNat 32 argv[n].laid.length < 0 := BitVec.not_lt_zero
    rw [hfs, if_neg hnever]
    exact copied_append hbytes fun c' h' hr' => ih (Nat.le_of_lt hlt) h' hr'

/-! ## Calls -/

/-- `argc` is the number of strings. -/
def Copy.Counted (call : Copy) : Prop := call.argc.toNat = call.argv.length

theorem copyStrings_zero {call : Copy} (hp : s.p = 0) : s.copyStrings call = .ok s := if_pos hp

theorem copyStrings_spec {call : Copy} (h : Laid mem₀ L s) (hp : s.p ≠ 0) (hcounted : call.Counted) :
    match verdict (L.length + (flat call.argv).length) (freePages mem₀) with
    | .fits => ∃ s', s.copyStrings call = .ok s' ∧ Laid mem₀ (flat call.argv ++ L) s' ∧ s'.fs = s.fs
    | .overruns => s.copyStrings call = .error .outOfRange
    | .short => ∃ s', s.copyStrings call = .ok s' ∧ s'.p = 0 ∧ Held mem₀ s' ∧ s'.fs = s.fs := by
  have hlaid : Laid mem₀ L { s with fs := callFs s.fs call.fromKmem } :=
    ⟨⟨h.taken, h.inj, h.others, h.high⟩, h.room, h.pages, h.bytes, h.left⟩
  have hready : Cursor.Ready s.fs call.fromKmem
      { s with fs := callFs s.fs call.fromKmem, offset := 0, pag := 0 } := ⟨rfl, .inl rfl⟩
  have hloop := copied_loop (c := { s with fs := callFs s.fs call.fromKmem, offset := 0, pag := 0 })
    call.argv.length le_rfl hlaid hready
  rw [List.take_length] at hloop
  have hcall : s.copyStrings call =
      match Cursor.copyLoop s.fs call.fromKmem call.argv call.argv.length
        { s with fs := callFs s.fs call.fromKmem, offset := 0, pag := 0 } with
      | .ok c => .ok { c.toArgs with fs := if call.fromKmem = 2 then s.fs else c.fs }
      | .error (.short s') => .ok { s' with p := 0 }
      | .error e => .error e := by
    unfold Args.copyStrings
    rw [if_neg hp, show call.argc.toNat = call.argv.length from hcounted]
    rfl
  rw [hcall]
  unfold Copied at hloop
  cases hverdict : verdict (L.length + (flat call.argv).length) (freePages mem₀) with
  | fits =>
    rw [hverdict] at hloop
    obtain ⟨c, hc, hlaid', hready'⟩ := hloop
    rw [hc]
    refine ⟨_, rfl, ⟨⟨hlaid'.taken, hlaid'.inj, hlaid'.others, hlaid'.high⟩, hlaid'.room, hlaid'.pages,
      hlaid'.bytes, hlaid'.left⟩, ?_⟩
    show (if call.fromKmem = 2 then s.fs else c.fs) = s.fs
    rw [hready'.fs, callFs]
    split <;> rfl
  | overruns =>
    rw [hverdict] at hloop
    dsimp only at hloop ⊢
    rw [hloop]
  | short =>
    rw [hverdict] at hloop
    obtain ⟨s', hs', hheld, hfs⟩ := hloop
    rw [hs']
    exact ⟨_, rfl, rfl, ⟨hheld.taken, hheld.inj, hheld.others, hheld.high⟩, hfs⟩

theorem copyCalls_zero (hp : s.p = 0) (calls : List Copy) : calls.foldlM Args.copyStrings s = .ok s := by
  induction calls with
  | nil => rfl
  | cons call calls ih =>
    rw [List.foldlM_cons, copyStrings_zero hp]
    exact ih

theorem size_cons {call : Copy} {calls : List Copy} :
    size (call :: calls) = (flat call.argv).length + size calls := by
  unfold size laidBy
  rw [List.reverse_cons, List.flatMap_append, List.flatMap_singleton, List.length_append, Nat.add_comm]

theorem laidBy_cons {call : Copy} {calls : List Copy} :
    laidBy (call :: calls) = laidBy calls ++ flat call.argv := by
  unfold laidBy
  rw [List.reverse_cons, List.flatMap_append, List.flatMap_singleton]

/-- What the calls leave, unless they run out of the array: all strings are laid, with room to spare, or the
result is 0. -/
def Ended (mem₀ : Mem) (L : List UInt8) (calls : List Copy) (fs : Seg) (s' : Args) : Prop :=
  Held mem₀ s' ∧ s'.fs = fs ∧
    if L.length + size calls < argTop ∧ pagesFor (L.length + size calls) ≤ freePages mem₀ then
      Laid mem₀ (laidBy calls ++ L) s'
    else s'.p = 0

theorem copyCalls_spec (calls : List Copy) (hcounted : ∀ call ∈ calls, call.Counted) :
    ∀ {L : List UInt8} {s : Args}, Laid mem₀ L s →
      (Overruns (argTop - L.length) calls ∧ 32 ≤ freePages mem₀ →
        calls.foldlM Args.copyStrings s = .error .outOfRange) ∧
      (¬ (Overruns (argTop - L.length) calls ∧ 32 ≤ freePages mem₀) →
        ∃ s', calls.foldlM Args.copyStrings s = .ok s' ∧ Ended mem₀ L calls s.fs s') := by
  induction calls with
  | nil =>
    intro L s h
    have hroom := h.room
    have hleft := h.left
    refine ⟨fun ⟨hover, _⟩ => hover.elim, fun _ => ⟨s, rfl, h.toHeld, rfl, ?_⟩⟩
    have hsize : size [] = 0 := rfl
    rw [hsize, Nat.add_zero]
    split
    · exact h
    · exact BitVec.eq_of_toNat_eq (show s.p.toNat = 0 by omega)
  | cons call calls ih =>
    intro L s h
    have hroom := h.room
    have hcounted' : ∀ c ∈ calls, c.Counted := fun c hc => hcounted c (List.mem_cons_of_mem call hc)
    have hzero : s.p = 0 ↔ argTop - L.length = 0 := by
      rw [show argTop - L.length = s.p.toNat by omega]
      exact BitVec.toNat_inj.symm
    rw [List.foldlM_cons]
    by_cases hp : s.p = 0
    · -- the calls return 0 at once
      refine ⟨fun ⟨hover, _⟩ => absurd (hzero.mp hp) hover.1, fun _ => ?_⟩
      rw [copyStrings_zero hp]
      refine ⟨s, copyCalls_zero hp calls, h.toHeld, rfl, ?_⟩
      have hfull := hzero.mp hp
      rw [if_neg (by omega)]
      exact hp
    · have hroom' : argTop - L.length ≠ 0 := fun heq => hp (hzero.mpr heq)
      have hspec := copyStrings_spec h hp (hcounted call List.mem_cons_self)
      cases hverdict : verdict (L.length + (flat call.argv).length) (freePages mem₀) with
      | fits =>
        -- the strings are laid, and the other calls go on below them
        rw [hverdict] at hspec
        obtain ⟨s₁, hs₁, hlaid, hfs⟩ := hspec
        obtain ⟨hle, -⟩ := verdict_fits.mp hverdict
        obtain ⟨hfirst, hrest⟩ := ih hcounted' hlaid
        have hlen : argTop - (flat call.argv ++ L).length = argTop - L.length - (flat call.argv).length := by
          rw [List.length_append]
          omega
        have hsum : (flat call.argv ++ L).length + size calls = L.length + size (call :: calls) := by
          rw [List.length_append, size_cons]
          omega
        have hover : Overruns (argTop - L.length) (call :: calls) ↔
            Overruns (argTop - (flat call.argv ++ L).length) calls := by
          rw [hlen]
          refine ⟨fun ⟨_, hor⟩ => hor.resolve_left (by omega), fun h => ⟨hroom', .inr h⟩⟩
        rw [hover, hs₁]
        refine ⟨hfirst, fun hnot => ?_⟩
        obtain ⟨s', hs', hheld, hfs', hend⟩ := hrest hnot
        refine ⟨s', hs', hheld, hfs'.trans hfs, ?_⟩
        rw [laidBy_cons, List.append_assoc, ← hsum]
        exact hend
      | overruns =>
        rw [hverdict] at hspec
        obtain ⟨hlt, hfree⟩ := verdict_overruns.mp hverdict
        have hover : Overruns (argTop - L.length) (call :: calls) := ⟨hroom', .inl (by omega)⟩
        refine ⟨fun _ => ?_, fun hnot => absurd ⟨hover, hfree⟩ hnot⟩
        rw [show s.copyStrings call = _ from hspec]
        rfl
      | short =>
        -- the pages have run out: `p` is 0, and the other calls return at once
        rw [hverdict] at hspec
        obtain ⟨s₁, hs₁, hp₁, hheld, hfs⟩ := hspec
        obtain ⟨hfree, hpages⟩ := verdict_short.mp hverdict
        refine ⟨fun ⟨_, henough⟩ => absurd henough (by omega), fun _ => ?_⟩
        rw [hs₁]
        refine ⟨s₁, copyCalls_zero hp₁ calls, hheld, hfs, ?_⟩
        rw [if_neg, hp₁]
        rintro ⟨hlt, hle⟩
        rw [size_cons] at hlt hle
        have hmore := hpages (by omega)
        have hmono := pagesFor_mono (show L.length + (flat call.argv).length ≤
          L.length + ((flat call.argv).length + size calls) by omega) (by omega)
        omega

/-! ## The argument pages of `do_execve` -/

/-- The calls stay within the array of pages, and what does not fit, or finds no page, is an error. -/
def InRange (mem : Mem) (fs : Seg) (calls : List Copy) : Prop :=
  ∃ r s', (Args.start mem fs).layStrings calls = .ok (r, s') ∧
    ∀ p, r = .ok p → size calls ≤ argTop ∧ pagesFor (size calls) ≤ freePages mem

theorem layStrings_ok {calls : List Copy} {s' : Args} (h : calls.foldlM Args.copyStrings s = .ok s') :
    s.layStrings calls = .ok (if s'.p = 0 then .error (-eNomem) else .ok s'.p, s') := by
  unfold Args.layStrings
  rw [h]
  show (if s'.p = 0 then _ else _) = _
  split <;> rfl

theorem layStrings_error {calls : List Copy} {e : CopyStop} (h : calls.foldlM Args.copyStrings s = .error e) :
    s.layStrings calls = .error e := by
  unfold Args.layStrings
  rw [h]
  rfl

/-- For every list of calls: the strings stay within the array of pages, and what does not fit or finds no
page is an error, if and only if no call goes on below `p = 0`, or less than 32 pages are free. -/
theorem layStrings_inRange (mem : Mem) (fs : Seg) (calls : List Copy) (hcounted : ∀ call ∈ calls, call.Counted) :
    InRange mem fs calls ↔ ¬ Overruns argTop calls ∨ freePages mem < 32 := by
  obtain ⟨hover, hended⟩ := copyCalls_spec calls hcounted (@laid_start mem fs)
  rw [List.length_nil, Nat.sub_zero] at hover hended
  by_cases hruns : Overruns argTop calls ∧ 32 ≤ freePages mem
  · refine iff_of_false ?_ fun hor => hor.elim (fun hno => hno hruns.1) (Nat.not_lt.mpr hruns.2)
    rintro ⟨r, s', hlay, -⟩
    rw [layStrings_error (hover hruns)] at hlay
    cases hlay
  · have hruns' : ¬ Overruns argTop calls ∨ freePages mem < 32 := by
      rw [not_and_or, Nat.not_le] at hruns
      exact hruns
    refine iff_of_true ?_ hruns'
    obtain ⟨s', hs', -, -, hend⟩ := hended hruns
    refine ⟨_, s', layStrings_ok hs', fun p hp => ?_⟩
    rw [List.length_nil, Nat.zero_add] at hend
    split at hend
    · next hfits => exact ⟨Nat.le_of_lt hfits.1, hfits.2⟩
    · rw [if_pos hend] at hp
      cases hp

/-! ### One long argument -/

/-- A machine of which all pages are free. -/
def freeMem : Mem where
  highMemory := lowMem + pagingPages
  memMap _ := 0
  pgDir _ := Pte.zero
  pageTable _ _ := Pte.zero
  page _ _ := 0
  task _ := none
  iCount _ := 0

theorem freePages_freeMem : freePages freeMem = pagingPages := by
  have hall : ((Finset.range pagingPages).filter fun nr => freeMem.memMap nr = 0) = Finset.range pagingPages :=
    Finset.filter_true_of_mem fun _ _ => rfl
  unfold freePages
  rw [hall, Finset.card_range]

/-- A string of `n` letters. -/
def letters (n : Nat) : CStr := ⟨List.replicate n 97, fun b hb => by rw [List.eq_of_mem_replicate hb]; decide⟩

theorem flat_letters (n : Nat) : (flat [letters n]).length = n + 1 := by
  simp [flat, CStr.laid, letters]

/-- The calls for one argument, without an environment. -/
def oneArg (n : Nat) : List Copy := [⟨0, [], 0⟩, ⟨1, [letters n], 0⟩]

theorem oneArg_counted (n : Nat) : ∀ call ∈ oneArg n, call.Counted := by
  intro call hcall
  rcases List.mem_cons.mp hcall with rfl | hcall
  · rfl
  · rw [List.mem_singleton.mp hcall]
    rfl

theorem oneArg_overruns (n : Nat) : Overruns argTop (oneArg n) ↔ argTop < n + 1 := by
  have hnil : (flat []).length = 0 := rfl
  simp [oneArg, Overruns, hnil, flat_letters, argTop]

/-- An argument of 131068 letters. -/
theorem layStrings_overruns : (∀ call ∈ oneArg 131068, call.Counted) ∧ ¬ InRange freeMem .user (oneArg 131068) := by
  refine ⟨oneArg_counted _, ?_⟩
  have hover : Overruns (argTop - ([] : List UInt8).length) (oneArg 131068) :=
    (oneArg_overruns 131068).mpr (Nat.lt_succ_self _)
  have hfree : 32 ≤ freePages freeMem := by
    rw [freePages_freeMem]
    decide
  have herror := (copyCalls_spec _ (oneArg_counted _) (@laid_start freeMem .user)).1 ⟨hover, hfree⟩
  rintro ⟨r, s', hlay, -⟩
  rw [layStrings_error herror] at hlay
  cases hlay

theorem layStrings_inRange_letters : InRange freeMem .user (oneArg 131067) :=
  (layStrings_inRange freeMem .user (oneArg 131067) (oneArg_counted _)).mpr
    (.inl fun hover => absurd ((oneArg_overruns 131067).mp hover) (Nat.lt_irrefl _))

end Linux011.Exec
