import Linux011.Exec.Image
import Linux011.Fs.FileBytes
import Linux011.Mm.Access

/-!
# Loading a page of a program

`do_no_page` of `mm/memory.c` for a page that is in the executable, with the file system below it: `bmap` finds
the four blocks, `bread_page` copies those that are there, and a loop clears the page from `end_data` on.

The loop counts with an `int`. If `end_data` is more than 2 GB behind the page, which a header whose sizes wrap
can make it, the count comes out positive: the loop clears the whole page, and goes on below it.
-/

namespace Linux011.Fs

open Linux011.Lib

namespace Cache

/-- The first loop of `bread_page`, for the block `b`. -/
def request (c : Cache) (b : Nat) : Cache :=
  if b = 0 then c
  else
    let c := c.getblk b
    if (c.head b).uptodate then c else c.llRwBlock .read b

/-- `COPYBLK` to offset `off` of a page. -/
def copyBlk (data : Nat → UInt8) (off : Nat) (page : Nat → UInt8) (p : Nat) : UInt8 :=
  if off ≤ p ∧ p < off + 1024 then data (p - off) else page p

/-- The second loop of `bread_page`, with the blocks to go. -/
def copyBlocks : List Nat → (off : Nat) → (Nat → UInt8) → Cache → Except Panic ((Nat → UInt8) × Cache)
  | [], _, page, c => .ok (page, c)
  | b :: bs, off, page, c =>
    if b = 0 then copyBlocks bs (off + 1024) page c
    else do
      let page := if (c.head b).uptodate then copyBlk (c.head b).data off page else page
      let c ← c.brelse b
      copyBlocks bs (off + 1024) page c

end Cache

namespace Dev

/-- `nr[i] = bmap(current->executable,block)`, for the blocks from `block` on. -/
def bmaps (n : Nat) : (count block : Nat) → Dev → Except Panic (List Nat × Dev)
  | 0, _, s => .ok ([], s)
  | count + 1, block, s => do
    let r ← s.bmap n block
    let r' ← bmaps n count (block + 1) r.2
    return (r.1 :: r'.1, r'.2)

/-- `bread_page`, from the bytes of the page to its bytes then. -/
def breadPage (b : List Nat) (page : Nat → UInt8) (s : Dev) : Except Panic ((Nat → UInt8) × Dev) := do
  let r ← Cache.copyBlocks b 0 page (b.foldl Cache.request s.cache)
  return (r.1, { s with cache := r.2 })

end Dev

open Dev

variable {c c' : Cache} {s : Dev} {n : Nat}

/-! ## Reading four blocks -/

theorem Cache.request_spec (hworks : ∀ b, c.works b = true) (b : Nat) :
    c.Same (c.request b) ∧ (b ≠ 0 → ((c.request b).head b).uptodate = true) ∧
      (c.request b).held = if b = 0 then c.held else Function.update c.held b (c.held b + 1) := by
  unfold Cache.request
  split
  · next hz => exact ⟨.refl c, fun hne => absurd hz hne, rfl⟩
  · dsimp only
    split
    · next hup => exact ⟨same_getblk b, fun _ => hup, held_getblk b⟩
    · refine ⟨(same_getblk b).trans same_read, fun _ => uptodate_read ?_, ?_⟩
      · rw [(same_getblk b).works]
        exact hworks b
      · rw [held_read, held_getblk]

/-- After the first loop the blocks are up to date, and held as often as they occur. -/
theorem Cache.requests_spec (hworks : ∀ b, c.works b = true) (bs : List Nat) :
    c.Same (bs.foldl Cache.request c) ∧
      (∀ b ∈ bs, b ≠ 0 → ((bs.foldl Cache.request c).head b).uptodate = true) ∧
      ∀ b ≠ 0, (bs.foldl Cache.request c).held b = c.held b + bs.count b := by
  induction bs generalizing c with
  | nil => exact ⟨.refl c, fun b hb => absurd hb List.not_mem_nil, fun b _ => rfl⟩
  | cons a bs ih =>
    obtain ⟨hsame, hup, hheld⟩ := request_spec hworks a
    obtain ⟨hsame', hup', hheld'⟩ := ih (c := c.request a) (by rw [hsame.works]; exact hworks)
    refine ⟨hsame.trans hsame', fun b hb hne => ?_, fun b hne => ?_⟩
    · rcases List.mem_cons.mp hb with rfl | hb
      · exact hsame'.uptodate b (hup hne)
      · exact hup' b hb hne
    · rw [List.foldl_cons, hheld' b hne, hheld]
      by_cases hab : a = b
      · subst hab
        rw [if_neg hne, Function.update_self, List.count_cons_self]
        omega
      · rw [List.count_cons_of_ne hab]
        split
        · rfl
        · rw [Function.update_of_ne (Ne.symm hab)]

theorem Cache.copyBlk_outside {data page : Nat → UInt8} {off p : Nat} (hp : p < off ∨ off + 1024 ≤ p) :
    Cache.copyBlk data off page p = page p :=
  if_neg (by omega)

/-- The second loop lets the buffers go, and copies the blocks that are there. -/
theorem Cache.copyBlocks_spec : ∀ (bs : List Nat) (off : Nat) (page : Nat → UInt8) (c : Cache),
    (∀ b ∈ bs, b ≠ 0 → (c.head b).uptodate = true ∧ bs.count b ≤ c.held b) →
    Post (Cache.copyBlocks bs off page c)
      (fun r => c.Same r.2 ∧ ∀ p, r.1 p =
        if off ≤ p ∧ bs.getD ((p - off) / 1024) 0 ≠ 0 then
          c.contents (bs.getD ((p - off) / 1024) 0) ((p - off) % 1024)
        else page p) (fun _ => False)
  | [], off, page, c, _ => by
    refine Post.ret ⟨.refl c, fun p => ?_⟩
    rw [if_neg (by simp)]
  | b :: bs, off, page, c, h => by
    -- the byte at `p` is in this block, in a later one, or before all of them
    have hnext : ∀ p, off + 1024 ≤ p → (b :: bs).getD ((p - off) / 1024) 0 = bs.getD ((p - (off + 1024)) / 1024) 0 ∧
        (p - off) % 1024 = (p - (off + 1024)) % 1024 := by
      intro p hp
      have hdiv : (p - off) / 1024 = (p - (off + 1024)) / 1024 + 1 := by omega
      rw [hdiv, List.getD_cons_succ]
      exact ⟨rfl, by omega⟩
    have hhere : ∀ p, off ≤ p → p < off + 1024 → (b :: bs).getD ((p - off) / 1024) 0 = b := by
      intro p hp hlt
      have hdiv : (p - off) / 1024 = 0 := by omega
      rw [hdiv, List.getD_cons_zero]
    unfold Cache.copyBlocks
    by_cases hz : b = 0
    · rw [if_pos hz]
      refine (copyBlocks_spec bs (off + 1024) page c fun b' hb' hne => ?_).imp ?_
      · obtain ⟨hup, hcount⟩ := h b' (List.mem_cons_of_mem _ hb') hne
        rw [List.count_cons_of_ne (by rw [hz]; exact hne.symm)] at hcount
        exact ⟨hup, hcount⟩
      · rintro r ⟨hsame, hbytes⟩
        refine ⟨hsame, fun p => ?_⟩
        rw [hbytes p]
        by_cases hlate : off + 1024 ≤ p
        · rw [(hnext p hlate).1, (hnext p hlate).2]
          simp only [hlate, true_and, show off ≤ p by omega]
        · rw [if_neg (by omega), if_neg]
          rintro ⟨hle, hne⟩
          exact hne ((hhere p hle (by omega)).trans hz)
    · rw [if_neg hz]
      obtain ⟨hup, hcount⟩ := h b List.mem_cons_self hz
      rw [List.count_cons_self] at hcount
      obtain ⟨m, hm⟩ : ∃ m, c.held b = m + 1 := ⟨c.held b - 1, by omega⟩
      refine Post.bind (brelse_spec hm) ?_
      rintro c₁ ⟨hsame₁, hheld₁⟩
      refine (copyBlocks_spec bs (off + 1024) _ c₁ fun b' hb' hne => ?_).imp ?_
      · obtain ⟨hup', hcount'⟩ := h b' (List.mem_cons_of_mem _ hb') hne
        refine ⟨hsame₁.uptodate b' hup', ?_⟩
        rw [hheld₁]
        rcases eq_or_ne b' b with rfl | hbb
        · rw [Function.update_self]
          omega
        · rw [Function.update_of_ne hbb]
          rwa [List.count_cons_of_ne hbb.symm] at hcount'
      · rintro r ⟨hsame, hbytes⟩
        refine ⟨hsame₁.trans hsame, fun p => ?_⟩
        rw [hbytes p, hsame₁.contents]
        by_cases hlate : off + 1024 ≤ p
        · rw [(hnext p hlate).1, (hnext p hlate).2]
          simp only [hlate, true_and, show off ≤ p by omega, hup, if_true, Cache.copyBlk_outside (Or.inr hlate)]
        · rw [if_neg (by omega), if_pos hup]
          by_cases hle : off ≤ p
          · rw [Cache.copyBlk, if_pos ⟨hle, by omega⟩, hhere p hle (by omega), if_pos ⟨hle, hz⟩, Cache.contents, if_pos hup,
              Nat.mod_eq_of_lt (by omega)]
          · rw [Cache.copyBlk_outside (Or.inl (by omega)), if_neg fun hp => hle hp.1]

theorem bmaps_spec : ∀ (count block : Nat) (s : Dev), (∀ b, s.cache.works b = true) → block + count ≤ maxBlocks →
    Post (s.bmaps n count block)
      (fun r => Same s r.2 ∧ r.1 = (List.range count).map fun i => s.slotZone n (Slot.ofBlock (block + i)))
      (fun _ => False)
  | 0, block, s, _, _ => Post.ret ⟨.refl s, rfl⟩
  | count + 1, block, s, hworks, hlimit => by
    unfold Dev.bmaps
    refine Post.bind (bmap_look (fun p _ _ => Or.inr (hworks _)) (by omega)) ?_
    rintro ⟨z, s₁⟩ ⟨hsame₁, -, hz⟩
    have hworks₁ : ∀ b, s₁.cache.works b = true := by
      rw [hsame₁.cache.works]
      exact hworks
    refine Post.bind (bmaps_spec count (block + 1) s₁ hworks₁ (by omega)) ?_
    rintro ⟨zs, s₂⟩ ⟨hsame₂, hzs⟩
    refine Post.ret ⟨hsame₁.trans hsame₂, ?_⟩
    simp only at hz hzs ⊢
    rw [hz, hzs, List.range_succ_eq_map, List.map_cons, List.map_map]
    congr 1
    refine List.map_congr_left fun i _ => ?_
    rw [hsame₁.slotZone, Function.comp_apply, Nat.succ_eq_add_one, Nat.add_assoc, Nat.add_comm 1 i]

/-- `bmap` panics on a block beyond the largest file. -/
theorem bmaps_panics : ∀ (count block : Nat) (s : Dev), 0 < count → maxBlocks < block + count →
    Post (s.bmaps n count block) (fun _ => False) (fun _ => True)
  | 0, _, _, hpos, _ => absurd hpos (Nat.lt_irrefl 0)
  | count + 1, block, s, _, hlimit => by
    unfold Dev.bmaps
    by_cases hbig : maxBlocks ≤ block
    · unfold Dev.bmap Dev.bmapCreate
      rw [if_pos hbig]
      exact Post.stop trivial
    · refine Post.bind (Post.any _) ?_
      rintro ⟨z, s₁⟩ -
      exact Post.bind (bmaps_panics count (block + 1) s₁ (by omega) (by omega)) fun _ hf => hf.elim

/-- The four blocks, in the page they were read to. -/
theorem breadPage_spec (hworks : ∀ b, s.cache.works b = true) (bs : List Nat) (page : Nat → UInt8) :
    Post (s.breadPage bs page)
      (fun r => Same s r.2 ∧ ∀ p, r.1 p =
        if bs.getD (p / 1024) 0 ≠ 0 then s.contents (bs.getD (p / 1024) 0) (p % 1024) else page p)
      (fun _ => False) := by
  obtain ⟨hsame, hup, hheld⟩ := Cache.requests_spec hworks bs
  unfold Dev.breadPage
  refine Post.bind (Cache.copyBlocks_spec bs 0 page _ fun b hb hne => ⟨hup b hb hne, ?_⟩) ?_
  · rw [hheld b hne]
    omega
  · rintro ⟨bytes, c⟩ ⟨hsame', hbytes⟩
    refine Post.ret ⟨⟨hsame.trans hsame', rfl, rfl, rfl, rfl⟩, fun p => ?_⟩
    simp only at hbytes ⊢
    rw [hbytes p, hsame.contents]
    simp only [Nat.zero_le, true_and, Nat.sub_zero]
    rfl

end Linux011.Fs

namespace Linux011.Mm

open Linux011.Lib
open Linux011.Fs (Dev int32)

/-! ## The fault -/

/-- A word of a page table with its byte `j` cleared. -/
def Pte.clearByte (e : Pte) : Nat → Pte
  | 0 => { e with present := false, rw := false, dirty := false }
  | 1 => { e with frame := e.frame / 16 * 16 }
  | 2 => { e with frame := e.frame / 4096 * 4096 + e.frame % 16 }
  | _ => { e with frame := e.frame % 4096 }

/-- `*(char *)tmp = 0`, at a physical address. In low memory is the kernel itself: what it does after it has
cleared that is not modelled. -/
def Mem.clearByte (tmp : Nat) (s : Mem) : Except Stop Mem :=
  let f := tmp / 4096
  let o := tmp % 4096
  if f < lowMem then .error (.die "the kernel is overwritten")
  else .ok ((s.setPage f (Function.update (s.page f) o 0)).setPte f (o / 4) ((s.pageTable f (o / 4)).clearByte (o % 4)))

/-- `while (i-- > 0) { tmp--; *(char *)tmp = 0; }` -/
def clearTail : (i tmp : Nat) → Mem → Except Stop Mem
  | 0, _, s => .ok s
  | i + 1, tmp, s => do
    let s ← s.clearByte (tmp - 1)
    clearTail i (tmp - 1) s

/-- A panic of the file system. -/
def fsCall {α : Type} : Except Fs.Panic α → Except Stop α
  | .ok a => .ok a
  | .error e => .error (.panic e)

/-- `tmp`, the offset of the page of an address in the code segment that begins at `start`. -/
def pageOffset (start address : Nat) : Nat := (address / 4096 * 4096 + 2 ^ 32 - start) % 2 ^ 32

/-- The part of `do_no_page` behind `get_free_page`, for the page at offset `tmp` of the executable `x`. -/
def loadInto (page x tmp address endData : Nat) (s : Mem) (dev : Dev) : Except Stop (Mem × Dev) := do
  let (nr, dev) ← fsCall (dev.bmaps x 4 (1 + tmp / 1024))
  let (bytes, dev) ← fsCall (dev.breadPage nr (s.page page))
  let i := int32 (tmp + 4096 - endData)
  let s ← clearTail i.toNat (4096 * page + 4096) (s.setPage page bytes)
  match putPage page address s with
  | (some _, s) => return (s, dev)
  | (none, s) => do
    let s ← freePage page s
    .error (.oom s)

/-- `do_no_page`, with the inode of the executable and its blocks on `dev`. -/
def doNoPageFrom (address cur : Nat) (current : Task) (s : Mem) (dev : Dev) : Except Stop (Mem × Dev) :=
  let tmp := pageOffset current.startCode address
  let address := address / 4096 * 4096
  match current.executable with
  | none => do
    let s ← getEmptyPage address s
    return (s, dev)
  | some x =>
    if tmp ≥ current.endData then do
      let s ← getEmptyPage address s
      return (s, dev)
    else do
      let (shared, s) ← sharePage tmp cur current s
      if shared then return (s, dev)
      else
        match getFreePage s with
        | (none, s) => .error (.oom s)
        | (some page, s) => loadInto page x tmp address current.endData s dev

/-- The bytes from `a` to `tmp` are cleared. A page that was no table, and one that lies apart, stays as it was
seen as a table. -/
structure Cleared (a tmp : Nat) (s s' : Mem) : Prop where
  dir : s'.pgDir = s.pgDir
  map : s'.memMap = s.memMap
  page : ∀ f, ∀ p < 4096, s'.page f p = if a ≤ 4096 * f + p ∧ 4096 * f + p < tmp then 0 else s.page f p
  table : ∀ f, 4096 * f + 4096 ≤ a ∨ tmp ≤ 4096 * f ∨ (s.pageTable f = fun _ => Pte.zero) →
    s'.pageTable f = s.pageTable f

variable {s s' : Mem} {a f i tmp : Nat}

theorem clearByte_zero (j : Nat) : Pte.zero.clearByte j = Pte.zero := by
  unfold Pte.clearByte
  split <;> rfl

theorem clearByte_cleared (h : s.clearByte tmp = .ok s') : 4096 * lowMem ≤ tmp ∧ Cleared tmp (tmp + 1) s s' := by
  unfold Mem.clearByte at h
  dsimp only at h
  split at h
  · cases h
  · next hlow =>
    cases h
    refine ⟨by omega, rfl, rfl, fun g p hp => ?_, fun g hg => ?_⟩
    · show Function.update s.page (tmp / 4096) _ g p = _
      by_cases hself : g = tmp / 4096
      · rw [hself, Function.update_self]
        by_cases hoff : p = tmp % 4096
        · rw [hoff, Function.update_self, if_pos (by omega)]
        · rw [Function.update_of_ne hoff, if_neg (by omega)]
      · rw [Function.update_of_ne hself, if_neg (by omega)]
    · show Function.update s.pageTable (tmp / 4096) _ g = _
      by_cases hself : g = tmp / 4096
      · have hzero : s.pageTable g = fun _ => Pte.zero := hg.elim (fun h => by omega) fun h => h.elim (fun h => by omega) id
        rw [hself] at hzero ⊢
        rw [Function.update_self]
        show Function.update (s.pageTable (tmp / 4096)) _ _ = _
        rw [hzero, clearByte_zero, Function.update_eq_self]
      · rw [Function.update_of_ne hself]

/-- The loop clears `i` bytes, unless it comes to low memory. -/
theorem clearTail_cleared : ∀ (i tmp : Nat) (s : Mem),
    Post (clearTail i tmp s) (Cleared (tmp - i) tmp s) (fun _ => tmp < i + 4096 * lowMem)
  | 0, tmp, s => Post.ret ⟨rfl, rfl, fun f p _ => by rw [if_neg (by omega)], fun _ _ => rfl⟩
  | i + 1, tmp, s => by
    unfold clearTail
    cases hbyte : s.clearByte (tmp - 1) with
    | error e =>
      refine Post.stop ?_
      unfold Mem.clearByte at hbyte
      dsimp only at hbyte
      split at hbyte
      · omega
      · cases hbyte
    | ok s₁ =>
      obtain ⟨hlow, hone⟩ := clearByte_cleared hbyte
      refine ((clearTail_cleared i (tmp - 1) s₁).mono (fun s' h => ?_) fun _ h => by omega)
      unfold lowMem at hlow
      refine ⟨h.dir.trans hone.dir, h.map.trans hone.map, fun f p hp => ?_, fun f hf => ?_⟩
      · rw [h.page f p hp, hone.page f p hp]
        by_cases hin : tmp - (i + 1) ≤ 4096 * f + p ∧ 4096 * f + p < tmp
        · rw [if_pos hin]
          split
          · rfl
          · rw [if_pos (by omega)]
        · rw [if_neg hin, if_neg (by omega), if_neg (by omega)]
      · have hzero : (s.pageTable f = fun _ => Pte.zero) → s₁.pageTable f = fun _ => Pte.zero :=
          fun hz => (hone.table f (Or.inr (Or.inr hz))).trans hz
        rcases hf with hf | hf | hf
        · rw [h.table f (Or.inl (by omega)), hone.table f (Or.inl (by omega))]
        · rw [h.table f (Or.inr (Or.inl (by omega))), hone.table f (Or.inr (Or.inl (by omega)))]
        · rw [h.table f (Or.inr (Or.inr (hzero hf))), hone.table f (Or.inr (Or.inr hf))]

/-! ## What the fault leaves of the page tables -/

/-- Every page table that is there belongs to one slot of the directory, and its page is not free. -/
structure Tables (s : Mem) : Prop where
  apart : ∀ d d', (s.pgDir d).present = true → (s.pgDir d').present = true → d < 1024 → d' < 1024 →
    (s.pgDir d).frame = (s.pgDir d').frame → d = d'
  used : ∀ d, (s.pgDir d).present = true → d < 1024 → ∀ nr < pagingPages, s.memMap nr = 0 →
    (s.pgDir d).frame ≠ nr + lowMem

/-- There is a free page for the contents, and another one for a page table that is missing. -/
def Room (s : Mem) (address : Nat) : Prop :=
  ∃ nr < pagingPages, s.memMap nr = 0 ∧ ((s.pgDir (dirIndex address)).present = true ∨
    ∃ nr' < pagingPages, nr' ≠ nr ∧ s.memMap nr' = 0)

/-- The invariant gives this, as the tables that `head.s` has set up are different ones. -/
theorem Inv.tables {lo : Nat} {own : Nat → Nat} (h : Inv lo own s)
    (hkernel : ∀ d < 16, ∀ d' < 16, (s.pgDir d).present = true → (s.pgDir d').present = true →
      (s.pgDir d).frame = (s.pgDir d').frame → d = d') : Tables s := by
  have hlo := h.fixed.lo_le
  have htable : ∀ d, 16 ≤ d → d < 1024 → (s.pgDir d).present = true → tableOf s d = some (s.pgDir d).frame :=
    fun d h1 h2 h3 => tableOf_eq_some.mpr ⟨mem_userDirs.mpr ⟨h1, h2⟩, h3, rfl⟩
  have hmain : ∀ d, 16 ≤ d → d < 1024 → (s.pgDir d).present = true →
      lo ≤ (s.pgDir d).frame ∧ (s.pgDir d).frame < s.highMemory :=
    fun d h1 h2 h3 => h.good.dir_main d (mem_userDirs.mpr ⟨h1, h2⟩) _ (htable d h1 h2 h3)
  constructor
  · intro d d' hd hd' hlt hlt' heq
    by_cases hk : d < 16
    · by_cases hk' : d' < 16
      · exact hkernel d hk d' hk' hd hd' heq
      · have hlow := h.fixed.kernel_dir d hk
        have hhigh := hmain d' (by omega) hlt' hd'
        omega
    · by_cases hk' : d' < 16
      · have hlow := h.fixed.kernel_dir d' hk'
        have hhigh := hmain d (by omega) hlt hd
        omega
      · exact h.good.dir_inj (mem_userDirs.mpr ⟨by omega, hlt⟩) (mem_userDirs.mpr ⟨by omega, hlt'⟩)
          (htable d (by omega) hlt hd) (by rw [heq]; exact htable d' (by omega) hlt' hd')
  · intro d hd hlt nr hnr hzero heq
    by_cases hk : d < 16
    · have hlow := h.fixed.kernel_dir d hk
      omega
    · obtain ⟨h1, h2⟩ := hmain d (by omega) hlt hd
      have hcnt : (view s own).cnt (s.pgDir d).frame = 0 := by
        rw [view_cnt (by omega), heq, mapNr, Nat.add_sub_cancel, hzero]
        rfl
      have hrefs := (h.good.free_page h1 h2 hcnt).2.1
      exact refs_eq_zero_iff.mp hrefs d (mem_userDirs.mpr ⟨by omega, hlt⟩) (htable d (by omega) hlt hd)

theorem dirIndex_lt (address : Nat) : dirIndex address < 1024 := Nat.mod_lt _ (by decide)

theorem walk_congr (hdir : s'.pgDir = s.pgDir)
    (htable : ∀ d < 1024, (s.pgDir d).present = true → s'.pageTable (s.pgDir d).frame = s.pageTable (s.pgDir d).frame)
    (address : Nat) : walk s' address = walk s address := by
  unfold walk
  rw [hdir]
  split
  · next hpresent => rw [htable _ (dirIndex_lt address) hpresent]
  · rfl

theorem dirIndex_page (address : Nat) : dirIndex (address / 4096 * 4096) = dirIndex address := by
  unfold dirIndex
  omega

theorem room_page {address : Nat} : Room s (address / 4096 * 4096) ↔ Room s address := by
  unfold Room
  rw [dirIndex_page]

/-- The page of an address is mapped as the address is. -/
theorem walk_page (s : Mem) (address : Nat) : walk s (address / 4096 * 4096) = walk s address := by
  have htable : tableIndex (address / 4096 * 4096) = tableIndex address := by
    unfold tableIndex
    omega
  unfold walk
  rw [dirIndex_page, htable]

theorem scanFree_isSome {m : Nat → UInt8} {n nr : Nat} (hnr : nr < n) (hzero : m nr = 0) :
    ∃ k, scanFree m n = some k := by
  cases hscan : scanFree m n with
  | none => exact absurd hzero (scanFree_none hscan nr hnr)
  | some k => exact ⟨k, rfl⟩

/-- A page that was free. -/
theorem getFreePage_some (h : getFreePage s = (some f, s')) :
    ∃ nr < pagingPages, f = nr + lowMem ∧ s.memMap nr = 0 ∧ s'.pgDir = s.pgDir ∧
      s'.memMap = Function.update s.memMap nr 1 ∧
      s'.pageTable = Function.update s.pageTable f (fun _ => Pte.zero) ∧
      s'.page = Function.update s.page f (fun _ => 0) := by
  unfold getFreePage at h
  split at h
  · cases h
  · next nr hscan =>
    cases h
    obtain ⟨hnr, hzero⟩ := scanFree_some hscan
    exact ⟨nr, hnr, rfl, hzero, rfl, rfl, rfl, rfl⟩

theorem getFreePage_room {nr : Nat} (hnr : nr < pagingPages) (hzero : s.memMap nr = 0) :
    ∃ f s', getFreePage s = (some f, s') := by
  obtain ⟨k, hk⟩ := scanFree_isSome hnr hzero
  unfold getFreePage
  rw [hk]
  exact ⟨_, _, rfl⟩

theorem walk_setPte (t j : Nat) (e : Pte) (address : Nat) : walk (s.setPte t j e) address =
    if (s.pgDir (dirIndex address)).present = true then
      if (s.pgDir (dirIndex address)).frame = t ∧ tableIndex address = j then e
      else s.pageTable (s.pgDir (dirIndex address)).frame (tableIndex address)
    else Pte.zero := by
  unfold walk
  refine if_congr Iff.rfl ?_ rfl
  show Function.update s.pageTable t (Function.update (s.pageTable t) j e) (s.pgDir (dirIndex address)).frame _ = _
  by_cases ht : (s.pgDir (dirIndex address)).frame = t
  · rw [ht, Function.update_self]
    by_cases hj : tableIndex address = j
    · rw [hj, Function.update_self, if_pos ⟨rfl, rfl⟩]
    · rw [Function.update_of_ne hj, if_neg fun h => hj h.2]
  · rw [Function.update_of_ne ht, if_neg fun h => ht h.1]

/-- `put_page` maps the page, keeps the pages that are not free, and maps nothing else. -/
theorem putPage_walk {r : Option Nat} {address : Nat} (hput : putPage f address s = (r, s')) (hr : r ≠ none) :
    walk s' address = Pte.user f ∧
      (∀ nr < pagingPages, s.memMap nr ≠ 0 → s'.page (nr + lowMem) = s.page (nr + lowMem)) ∧
      (Tables s → address < 2 ^ 32 → ∀ other < 2 ^ 32, other / 4096 ≠ address / 4096 → walk s' other = walk s other) := by
  have hindex : ∀ other, address < 2 ^ 32 → other < 2 ^ 32 → other / 4096 ≠ address / 4096 →
      dirIndex other = dirIndex address → tableIndex other ≠ tableIndex address := by
    intro other ha ho hne hdir htable
    unfold dirIndex at hdir
    unfold tableIndex at htable
    omega
  unfold putPage at hput
  dsimp only at hput
  split at hput
  · next hpresent =>
    cases hput
    refine ⟨?_, fun nr _ _ => rfl, fun ht ha other ho hne => ?_⟩
    · rw [walk_setPte, if_pos hpresent, if_pos ⟨rfl, rfl⟩]
    · rw [walk_setPte, walk]
      split
      · next hthere =>
        rw [if_neg]
        rintro ⟨hframe, htable⟩
        exact hindex other ha ho hne (ht.apart _ _ hthere hpresent (dirIndex_lt other) (dirIndex_lt address) hframe) htable
      · rfl
  · next habsent =>
    split at hput
    · cases hput
      exact absurd rfl hr
    · next t s₁ hget =>
      cases hput
      obtain ⟨nr, hnr, ht, hzero, hdir₁, -, htable₁, hpage₁⟩ := getFreePage_some hget
      have hnew : (s₁.setDir (dirIndex address) (Pte.user t)).pgDir (dirIndex address) = Pte.user t :=
        Function.update_self ..
      have hthere : (Pte.user t).present = true := rfl
      refine ⟨?_, fun nr' _ hused => ?_, fun htables ha other ho hne => ?_⟩
      · rw [walk_setPte, hnew, if_pos hthere, if_pos ⟨rfl, rfl⟩]
      · show s₁.page (nr' + lowMem) = _
        rw [hpage₁, Function.update_of_ne]
        intro heq
        obtain rfl : nr' = nr := by omega
        exact hused hzero
      · rw [walk_setPte, walk]
        by_cases hdir : dirIndex other = dirIndex address
        · -- the new table maps nothing else
          rw [hdir, hnew, if_pos hthere, if_neg habsent, if_neg fun h => hindex other ha ho hne hdir h.2]
          show s₁.pageTable t _ = _
          rw [htable₁, Function.update_self]
        · have hother : (s₁.setDir (dirIndex address) (Pte.user t)).pgDir (dirIndex other) = s.pgDir (dirIndex other) := by
            show Function.update s₁.pgDir _ _ _ = _
            rw [Function.update_of_ne hdir, hdir₁]
          rw [hother]
          split
          · next hthere =>
            have hapart : (s.pgDir (dirIndex other)).frame ≠ t := by
              rw [ht]
              exact htables.used _ hthere (dirIndex_lt other) nr hnr hzero
            rw [if_neg fun h => hapart h.1]
            show s₁.pageTable _ _ = _
            rw [htable₁, Function.update_of_ne hapart]
          · rfl

/-! ## What the fault loads -/

open Linux011.Exec (Header execBinary Image)

/-- `do_execve` accepts the header, in a file of `iSize` bytes, and sets `end_data`. -/
def Accepted (ex : Header) (iSize : BitVec 32) (endData : Nat) : Prop :=
  ∃ shBang p im, execBinary iSize ex shBang p = .ok im ∧ im.endData.toNat = endData

/-- A fault of the task in slot `cur`, at a page that is in its program, an executable with the header `ex`. No page
can be shared, memory is available, and block reads succeed. -/
structure Faults (ex : Header) (iSize : BitVec 32) (endData cur address : Nat) (s : Mem) (dev : Dev) (x : Nat)
    (current : Task) : Prop where
  accepted : Accepted ex iSize endData
  slot : s.task cur = some current
  start : current.startCode = cur * 0x4000000
  data : current.endData = endData
  executable : current.executable = some x
  size : (dev.inode x).iSize = iSize.toNat
  header : Header.read (fun p => (dev.fileByte x p).toBitVec) = ex
  alone : sharePage (pageOffset (cur * 0x4000000) address) cur current s = .ok (false, s)
  memory : Room s address
  tables : Tables s
  reads : ∀ b, dev.cache.works b = true

/-- The page at offset `tmp` of the program is mapped, with the bytes of the file behind its header and zeroes from
`end_data` on, and no other mapping has changed. -/
structure Loads (dev : Dev) (x endData tmp address : Nat) (s s' : Mem) : Prop where
  page : ∃ f, walk s' address = Pte.user f ∧
    ∀ k < 4096, s'.page f k = if tmp + k < endData then dev.fileByte x (1024 + tmp + k) else 0
  others : ∀ other < 2 ^ 32, other / 4096 ≠ address / 4096 → walk s' other = walk s other

/-- The count of the loop that clears the tail of the page. -/
def tailCount (tmp endData : Nat) : Nat := (int32 (tmp + 4096 - endData)).toNat

/-- The four blocks are within the largest file, and `end_data` is less than 2 GB behind the page. -/
def InReach (tmp endData : Nat) : Prop := 1 + tmp / 1024 + 4 ≤ Dev.maxBlocks ∧ endData ≤ tmp + 4096 + 2 ^ 31

instance (tmp endData : Nat) : Decidable (InReach tmp endData) := inferInstanceAs (Decidable (_ ∧ _))

theorem tailCount_near {endData : Nat} (h : tmp < endData) (hnear : endData ≤ tmp + 4096 + 2 ^ 31) :
    tailCount tmp endData = tmp + 4096 - endData := by
  unfold tailCount int32
  rw [Int.bmod_eq_of_le (by omega) (by omega)]
  omega

/-- A count that should be negative comes out positive. -/
theorem tailCount_far {endData : Nat} (hfar : tmp + 4096 + 2 ^ 31 < endData) (hlt : endData < 2 ^ 32) :
    4096 < tailCount tmp endData := by
  have hwrap : int32 (tmp + 4096 - endData) = tmp + 4096 - endData + 2 ^ 32 := by
    unfold int32
    rw [← Int.add_bmod_right]
    exact Int.bmod_eq_of_le (by omega) (by omega)
  unfold tailCount
  rw [hwrap]
  omega

section

variable {ex : Header} {iSize : BitVec 32} {endData cur address x : Nat} {dev : Dev} {current : Task}

theorem pageOffset_aligned : pageOffset (cur * 0x4000000) address % 4096 = 0 := by
  unfold pageOffset
  omega

/-- The page that `bread_page` fills shows four blocks of the file. -/
theorem readPage_spec (hreads : ∀ b, dev.cache.works b = true) (haligned : tmp % 1024 = 0)
    (hlimit : 1 + tmp / 1024 + 4 ≤ Dev.maxBlocks) :
    ∃ nr dev₁ bytes dev₂, dev.bmaps x 4 (1 + tmp / 1024) = .ok (nr, dev₁) ∧
      dev₁.breadPage nr (fun _ => 0) = .ok (bytes, dev₂) ∧ dev.Same dev₂ ∧
      ∀ k < 4096, bytes k = dev.fileByte x (1024 + tmp + k) := by
  obtain ⟨⟨nr, dev₁⟩, hmaps, hsame₁, hnr⟩ := (Fs.bmaps_spec 4 (1 + tmp / 1024) dev hreads hlimit).returns
  have hreads₁ : ∀ b, dev₁.cache.works b = true := by
    rw [hsame₁.cache.works]
    exact hreads
  obtain ⟨⟨bytes, dev₂⟩, hread, hsame₂, hbytes⟩ := (Fs.breadPage_spec hreads₁ nr fun _ => 0).returns
  refine ⟨nr, dev₁, bytes, dev₂, hmaps, hread, hsame₁.trans hsame₂, fun k hk => ?_⟩
  simp only at hnr hbytes
  have hzone : nr.getD (k / 1024) 0 = dev.slotZone x (Fs.Slot.ofBlock (1 + tmp / 1024 + k / 1024)) := by
    rw [hnr, List.getD_eq_getElem?_getD, List.getElem?_map, List.getElem?_range (by omega)]
    rfl
  rw [hbytes k, hzone, hsame₁.contents]
  unfold Dev.fileByte
  rw [show (1024 + tmp + k) / 1024 = 1 + tmp / 1024 + k / 1024 by omega, show (1024 + tmp + k) % 1024 = k % 1024 by omega]
  rw [ite_not]

/-- The page is there, and with it what the page table needs. -/
theorem putPage_room {nr : Nat} (hroom : Room s address) (hdir : s'.pgDir = s.pgDir)
    (hmap : s'.memMap = Function.update s.memMap nr 1) : ∃ s'', putPage f address s' = (some f, s'') := by
  unfold putPage
  dsimp only
  split
  · exact ⟨_, rfl⟩
  · next habsent =>
    obtain ⟨k, hk, hzero, hpresent | ⟨k', hk', hne, hzero'⟩⟩ := hroom
    · rw [hdir] at habsent
      exact absurd hpresent habsent
    · have hleft : ∃ m < pagingPages, s'.memMap m = 0 := by
        by_cases hkn : k = nr
        · refine ⟨k', hk', ?_⟩
          rw [hmap, Function.update_of_ne (by omega)]
          exact hzero'
        · refine ⟨k, hk, ?_⟩
          rw [hmap, Function.update_of_ne hkn]
          exact hzero
      obtain ⟨m, hm, hfree⟩ := hleft
      obtain ⟨t, s'', hget⟩ := getFreePage_room hm hfree
      rw [hget]
      exact ⟨_, rfl⟩

theorem Tables.taken {nr : Nat} (h : Tables s) (hdir : s'.pgDir = s.pgDir)
    (hmap : s'.memMap = Function.update s.memMap nr 1) : Tables s' := by
  constructor
  · rw [hdir]
    exact h.apart
  · intro d hd hlt k hk hzero
    rw [hdir] at hd ⊢
    refine h.used d hd hlt k hk ?_
    rw [hmap] at hzero
    by_cases hkn : k = nr
    · rw [hkn, Function.update_self] at hzero
      cases hzero
    · rwa [Function.update_of_ne hkn] at hzero

/-- A page that was just taken and then filled: it is mapped with its bytes, and nothing else is mapped. -/
theorem putPage_taken {s₁ : Mem} (hget : getFreePage s = (some f, s₁)) (hroom : Room s address) (htables : Tables s)
    (hdir : s'.pgDir = s₁.pgDir) (hmap : s'.memMap = s₁.memMap) : ∃ s'',
      putPage f (address / 4096 * 4096) s' = (some f, s'') ∧ walk s'' address = Pte.user f ∧ s''.page f = s'.page f ∧
      ((∀ t, t ≠ f → s'.pageTable t = s₁.pageTable t) → address < 2 ^ 32 →
        ∀ other < 2 ^ 32, other / 4096 ≠ address / 4096 → walk s'' other = walk s other) := by
  obtain ⟨nr, hnr, hf, hfree, hdir₁, hmap₁, htable₁, -⟩ := getFreePage_some hget
  rw [hdir₁] at hdir
  rw [hmap₁] at hmap
  obtain ⟨s'', hput⟩ := putPage_room (f := f) (room_page.mpr hroom) hdir hmap
  obtain ⟨hself, hkept, hothers⟩ := putPage_walk hput (by simp)
  refine ⟨s'', hput, ?_, ?_, fun htable ha other ho hne => ?_⟩
  · rw [← walk_page]
    exact hself
  · have hstill : s'.memMap nr ≠ 0 := by
      rw [hmap, Function.update_self]
      decide
    rw [hf]
    exact hkept nr hnr hstill
  · rw [hothers (htables.taken hdir hmap) (by omega) other ho (by omega)]
    refine walk_congr hdir (fun d hd hpresent => ?_) other
    have hapart : (s.pgDir d).frame ≠ f := by
      rw [hf]
      exact htables.used d hpresent hd nr hnr hfree
    rw [htable _ hapart, htable₁, Function.update_of_ne hapart]

/-- No page is shared, and one is taken. -/
theorem doNoPageFrom_eq (h : Faults ex iSize endData cur address s dev x current)
    (hinside : pageOffset (cur * 0x4000000) address < endData) (hget : getFreePage s = (some f, s')) :
    doNoPageFrom address cur current s dev =
      loadInto f x (pageOffset (cur * 0x4000000) address) (address / 4096 * 4096) endData s' dev := by
  unfold doNoPageFrom
  simp only [h.start, h.data, h.executable]
  rw [if_neg (by omega), h.alone]
  show (match getFreePage s with
    | (none, s) => Except.error (Stop.oom s)
    | (some page, s) => loadInto page x _ _ endData s dev) = _
  rw [hget]

/-- What the fault does: the page is mapped, with the last `tailCount` bytes cleared. Where that is more than a page,
low memory may be reached, or other tables may change. -/
theorem doNoPageFrom_spec (h : Faults ex iSize endData cur address s dev x current) (ha : address < 2 ^ 32)
    (hinside : pageOffset (cur * 0x4000000) address < endData)
    (hlimit : 1 + pageOffset (cur * 0x4000000) address / 1024 + 4 ≤ Dev.maxBlocks) :
    Post (doNoPageFrom address cur current s dev)
      (fun r => (∃ f, walk r.1 address = Pte.user f ∧ ∀ k < 4096, r.1.page f k =
          if 4096 ≤ k + tailCount (pageOffset (cur * 0x4000000) address) endData then 0
          else dev.fileByte x (1024 + pageOffset (cur * 0x4000000) address + k)) ∧
        (tailCount (pageOffset (cur * 0x4000000) address) endData ≤ 4096 →
          ∀ other < 2 ^ 32, other / 4096 ≠ address / 4096 → walk r.1 other = walk s other))
      (fun _ => 4096 < tailCount (pageOffset (cur * 0x4000000) address) endData) := by
  have haligned : pageOffset (cur * 0x4000000) address % 1024 = 0 := by
    have hpage : pageOffset (cur * 0x4000000) address % 4096 = 0 := pageOffset_aligned
    omega
  obtain ⟨k, hk, hzero, -⟩ := id h.memory
  obtain ⟨f, s₁, hget⟩ := getFreePage_room hk hzero
  rw [doNoPageFrom_eq h hinside hget]
  generalize pageOffset (cur * 0x4000000) address = tmp at *
  obtain ⟨nr, -, hf, -, -, -, -, hpage₁⟩ := getFreePage_some hget
  obtain ⟨blocks, dev₁, bytes, dev₂, hmaps, hread, -, hbytes⟩ := readPage_spec (x := x) h.reads haligned hlimit
  have hempty : s₁.page f = fun _ => 0 := by rw [hpage₁, Function.update_self]
  unfold loadInto
  rw [hmaps, hempty]
  refine Post.bind (Post.ret rfl : Post _ (fun r => r = (blocks, dev₁)) _) ?_
  rintro r rfl
  dsimp only
  rw [hread]
  refine Post.bind (Post.ret rfl : Post _ (fun r => r = (bytes, dev₂)) _) ?_
  rintro r rfl
  dsimp only
  refine Post.bind ((clearTail_cleared (tailCount tmp endData) (4096 * f + 4096) (s₁.setPage f bytes)).mono
    (fun _ h => h) fun _ hlow => by omega) ?_
  intro s₃ hcleared
  obtain ⟨s₄, hput, hself, hkept, hothers⟩ := putPage_taken hget h.memory h.tables hcleared.dir hcleared.map
  simp only [hput]
  refine Post.ret ⟨⟨f, hself, fun k hk => ?_⟩, fun hcount => hothers (fun t ht => hcleared.table t (by omega)) ha⟩
  rw [hkept, hcleared.page f k hk]
  show (if _ then 0 else Function.update s₁.page f bytes f k) = _
  rw [Function.update_self, hbytes k hk]
  exact if_congr (by omega) rfl rfl

/-- Beyond the largest file `bmap` panics. -/
theorem doNoPageFrom_panics (h : Faults ex iSize endData cur address s dev x current)
    (hinside : pageOffset (cur * 0x4000000) address < endData)
    (hlimit : Dev.maxBlocks < 1 + pageOffset (cur * 0x4000000) address / 1024 + 4) :
    Post (doNoPageFrom address cur current s dev) (fun _ => False) (fun _ => True) := by
  obtain ⟨k, hk, hzero, -⟩ := id h.memory
  obtain ⟨f, s₁, hget⟩ := getFreePage_room hk hzero
  rw [doNoPageFrom_eq h hinside hget]
  unfold loadInto
  cases hmaps : dev.bmaps x 4 (1 + pageOffset (cur * 0x4000000) address / 1024) with
  | ok r => exact ((Fs.bmaps_panics 4 _ dev (by decide) hlimit).of_ok r hmaps).elim
  | error e => exact Post.stop trivial

theorem loads_of_inReach (h : Faults ex iSize endData cur address s dev x current) (ha : address < 2 ^ 32)
    (hinside : pageOffset (cur * 0x4000000) address < endData)
    (hreach : InReach (pageOffset (cur * 0x4000000) address) endData) :
    Post (doNoPageFrom address cur current s dev)
      (fun r => Loads dev x endData (pageOffset (cur * 0x4000000) address) address s r.1) (fun _ => False) := by
  have hspec := doNoPageFrom_spec h ha hinside hreach.1
  have hcount := tailCount_near hinside hreach.2
  generalize pageOffset (cur * 0x4000000) address = tmp at *
  refine hspec.mono (fun r hr => ⟨?_, hr.2 (by omega)⟩) fun _ herror => by omega
  obtain ⟨f, hwalk, hbytes⟩ := hr.1
  refine ⟨f, hwalk, fun k hk => ?_⟩
  rw [hbytes k hk, hcount]
  split
  · rw [if_neg (by omega)]
  · rw [if_pos (by omega)]

/-- A page whose bytes in the file are not all zero is loaded only within reach. -/
theorem inReach_of_loads (h : Faults ex iSize endData cur address s dev x current) (ha : address < 2 ^ 32)
    (hinside : pageOffset (cur * 0x4000000) address < endData) (hend : endData < 2 ^ 32)
    (hbyte : ∃ k < 4096, dev.fileByte x (1024 + pageOffset (cur * 0x4000000) address + k) ≠ 0)
    (hloads : Post (doNoPageFrom address cur current s dev)
      (fun r => Loads dev x endData (pageOffset (cur * 0x4000000) address) address s r.1) (fun _ => False)) :
    InReach (pageOffset (cur * 0x4000000) address) endData := by
  obtain ⟨r, hrun, hload⟩ := hloads.returns
  by_contra hout
  by_cases hlimit : 1 + pageOffset (cur * 0x4000000) address / 1024 + 4 ≤ Dev.maxBlocks
  · obtain ⟨⟨f, hwalk, hbytes⟩, -⟩ := (doNoPageFrom_spec h ha hinside hlimit).of_ok r hrun
    obtain ⟨f', hwalk', hwanted⟩ := hload.page
    obtain ⟨k, hk, hne⟩ := hbyte
    have hfar : pageOffset (cur * 0x4000000) address + 4096 + 2 ^ 31 < endData :=
      Nat.not_le.mp fun hnear => hout ⟨hlimit, hnear⟩
    have hcount := tailCount_far hfar hend
    -- the whole page is cleared
    have hframe : f' = f := congrArg Pte.frame (hwalk'.symm.trans hwalk)
    have hzero := hbytes k hk
    rw [if_pos (by omega), ← hframe, hwanted k hk, if_pos (by omega)] at hzero
    exact hne hzero
  · exact (doNoPageFrom_panics h hinside (Nat.not_le.mp hlimit)).of_ok r hrun

/-- What `bmap` and `bread_page` deliver, as `doNoPage` takes it. -/
def exeFile (dev : Dev) : ExeFile := fun x block =>
  if dev.slotZone x (Fs.Slot.ofBlock block) = 0 then none
  else some (dev.contents (dev.slotZone x (Fs.Slot.ofBlock block)))

theorem filePage_exeFile (haligned : tmp % 1024 = 0) (k : Nat) :
    filePage (exeFile dev) x endData tmp k = if tmp + k < endData then dev.fileByte x (1024 + tmp + k) else 0 := by
  have hblock : (1024 + tmp + k) / 1024 = 1 + tmp / 1024 + k / 1024 := by omega
  have hoff : (1024 + tmp + k) % 1024 = k % 1024 := by omega
  unfold filePage exeFile Dev.fileByte
  rw [hblock, hoff]
  by_cases hend : endData ≤ tmp + k
  · rw [if_pos hend, if_neg (Nat.not_lt.mpr hend)]
  · have hlt : tmp + k < endData := Nat.not_le.mp hend
    rw [if_neg hend, if_pos hlt]
    by_cases hz : dev.slotZone x (Fs.Slot.ofBlock (1 + tmp / 1024 + k / 1024)) = 0
    · simp only [hz, if_true]
    · simp only [hz, if_false]

/-- `doNoPage` says the same of a page in the space of its task. So it is what the code does within reach. -/
theorem doNoPage_loads (h : Faults ex iSize endData cur address s dev x current) (ha : address < 2 ^ 32)
    (hstart : cur * 0x4000000 ≤ address / 4096 * 4096)
    (hinside : pageOffset (cur * 0x4000000) address < endData) :
    Post (doNoPage (exeFile dev) address cur current s)
      (Loads dev x endData (pageOffset (cur * 0x4000000) address) address s) (fun _ => False) := by
  have hoffset : address / 4096 * 4096 - cur * 0x4000000 = pageOffset (cur * 0x4000000) address := by
    unfold pageOffset
    omega
  have haligned : pageOffset (cur * 0x4000000) address % 1024 = 0 := by
    have hpage : pageOffset (cur * 0x4000000) address % 4096 = 0 := pageOffset_aligned
    omega
  obtain ⟨k, hk, hzero, -⟩ := id h.memory
  obtain ⟨f, s₁, hget⟩ := getFreePage_room hk hzero
  unfold doNoPage
  simp only [h.start, h.data, h.executable, hoffset]
  rw [if_neg (by omega), h.alone]
  generalize pageOffset (cur * 0x4000000) address = tmp at *
  refine Post.bind (Post.ret rfl : Post _ (fun r => r = (false, s)) _) ?_
  rintro r rfl
  dsimp only
  rw [if_neg Bool.false_ne_true, hget]
  obtain ⟨s₂, hput, hself, hkept, hothers⟩ := putPage_taken hget h.memory h.tables
    (rfl : (s₁.setPage f (filePage (exeFile dev) x endData tmp)).pgDir = s₁.pgDir) rfl
  simp only [hput]
  refine Post.ret ⟨⟨f, hself, fun k _ => ?_⟩, hothers (fun _ _ => rfl) ha⟩
  rw [hkept, ← filePage_exeFile haligned]
  show Function.update s₁.page f _ f k = _
  rw [Function.update_self]

/-! ## A file of ones -/

/-- The field of a header with a number. -/
def field (ex : Header) : Nat → BitVec 32
  | 0 => ex.aMagic
  | 1 => ex.aText
  | 2 => ex.aData
  | 3 => ex.aBss
  | 4 => ex.aSyms
  | 5 => ex.aEntry
  | 6 => ex.aTrsize
  | _ => ex.aDrsize

/-- The bytes of a header. -/
def headerBytes (ex : Header) (p : Nat) : UInt8 := ⟨(field ex (p / 4)).extractLsb' (8 * (p % 4)) 8⟩

/-- Block 300 is a header, and all others are ones. Zone 257 is an index block that leads to itself. -/
def onesFile (ex : Header) (iSize : BitVec 32) : Dev where
  cache := ⟨fun _ => none, fun b => if b = 300 then headerBytes ex else fun _ => 1, fun _ => true, fun _ _ => 0⟩
  super := ⟨3, 400, 1, 1, 5⟩
  zmap _ := true
  imap _ := true
  inode _ := ⟨0o100755, 0, 0, iSize.toNat, 1, fun i => if i = 0 then 300 else 257, 1⟩

/-- All memory is free, and there is one task. -/
def freeMem (cur : Nat) (current : Task) : Mem where
  highMemory := 4096
  memMap _ := 0
  pgDir _ := Pte.zero
  pageTable _ _ := Pte.zero
  page _ _ := 0
  task := Function.update (fun _ => none) cur (some current)
  iCount _ := 0

theorem word_bytes (ex : Header) (k : Nat) :
    Exec.word (fun p => (headerBytes ex p).toBitVec) k = field ex k := by
  have hbyte : ∀ j < 4, (headerBytes ex (4 * k + j)).toBitVec = (field ex k).extractLsb' (8 * j) 8 := by
    intro j hj
    unfold headerBytes
    rw [show (4 * k + j) / 4 = k by omega, show (4 * k + j) % 4 = j by omega]
  have hzero := hbyte 0 (by decide)
  rw [Nat.add_zero] at hzero
  unfold Exec.word
  dsimp only
  rw [hzero, hbyte 1 (by decide), hbyte 2 (by decide), hbyte 3 (by decide)]
  refine BitVec.eq_of_getLsbD_eq fun i hi => ?_
  simp only [BitVec.getLsbD_append, BitVec.getLsbD_extractLsb']
  grind

theorem onesFile_byte {p : Nat} (hp : 1024 ≤ p) : (onesFile ex iSize).fileByte 1 p = 1 := by
  have hentry : ∀ k, (onesFile ex iSize).entryOf 257 k = 257 := fun k => rfl
  have hzone : (onesFile ex iSize).slotZone 1 (Fs.Slot.ofBlock (p / 1024)) = 257 := by
    unfold Fs.Slot.ofBlock
    split
    · show (if p / 1024 = 0 then 300 else 257) = 257
      rw [if_neg (by omega)]
    · split
      · exact hentry _
      · exact hentry _
  unfold Dev.fileByte
  rw [hzone]
  rfl

theorem onesFile_header : Header.read (fun p => ((onesFile ex iSize).fileByte 1 p).toBitVec) = ex := by
  have hword : ∀ k < 8, Exec.word (fun p => ((onesFile ex iSize).fileByte 1 p).toBitVec) k = field ex k := by
    intro k hk
    have hbyte : ∀ p < 1024, (onesFile ex iSize).fileByte 1 p = headerBytes ex p := by
      intro p hp
      unfold Dev.fileByte
      rw [show p / 1024 = 0 by omega, Nat.mod_eq_of_lt hp]
      rfl
    rw [← word_bytes]
    unfold Exec.word
    dsimp only
    rw [hbyte _ (by omega), hbyte _ (by omega), hbyte _ (by omega), hbyte _ (by omega)]
  unfold Header.read
  rw [hword 0 (by decide), hword 1 (by decide), hword 2 (by decide), hword 3 (by decide), hword 4 (by decide),
    hword 5 (by decide), hword 6 (by decide), hword 7 (by decide)]
  rfl

theorem freeMem_faults (cur address limit : Nat) (haccepted : Accepted ex iSize endData) : Faults ex iSize endData cur address
    (freeMem cur ⟨cur * 0x4000000, endData, some 1, limit, limit⟩) (onesFile ex iSize) 1
    ⟨cur * 0x4000000, endData, some 1, limit, limit⟩ where
  accepted := haccepted
  slot := by simp [freeMem]
  start := rfl
  data := rfl
  executable := rfl
  size := rfl
  header := onesFile_header
  alone := rfl
  memory := ⟨0, by decide, rfl, Or.inr ⟨1, by decide, by decide, rfl⟩⟩
  tables := ⟨fun _ _ h => (by cases h), fun _ h => (by cases h)⟩
  reads _ := rfl

/-- For the faults of an accepted program at a page of it: the page is loaded as it should be, whatever the memory
and the file are, if and only if it is in reach. One page of one file, if it is not all zero, is loaded as it should
be if and only if it is in reach. -/
theorem noPage_loads_iff (haccepted : Accepted ex iSize endData) (ha : address < 2 ^ 32)
    (hinside : pageOffset (cur * 0x4000000) address < endData) :
    ((∀ s dev x current, Faults ex iSize endData cur address s dev x current →
        Post (doNoPageFrom address cur current s dev)
          (fun r => Loads dev x endData (pageOffset (cur * 0x4000000) address) address s r.1) (fun _ => False)) ↔
      InReach (pageOffset (cur * 0x4000000) address) endData) ∧
    ∀ s dev x current, Faults ex iSize endData cur address s dev x current →
      (∃ k < 4096, dev.fileByte x (1024 + pageOffset (cur * 0x4000000) address + k) ≠ 0) →
      (Post (doNoPageFrom address cur current s dev)
          (fun r => Loads dev x endData (pageOffset (cur * 0x4000000) address) address s r.1) (fun _ => False) ↔
        InReach (pageOffset (cur * 0x4000000) address) endData) := by
  have hend : endData < 2 ^ 32 := by
    obtain ⟨-, -, im, -, rfl⟩ := haccepted
    exact im.endData.isLt
  refine ⟨⟨fun hall => ?_, fun hreach s dev x current h => loads_of_inReach h ha hinside hreach⟩,
    fun s dev x current h hbyte => ⟨inReach_of_loads h ha hinside hend hbyte, loads_of_inReach h ha hinside⟩⟩
  have hfaults := freeMem_faults cur address 0 haccepted
  refine inReach_of_loads hfaults ha hinside hend ⟨0, by decide, ?_⟩ (hall _ _ _ _ hfaults)
  rw [onesFile_byte (by omega)]
  decide

/-- A program of two pages, at its second page. -/
theorem noPage_loads_second : Accepted ⟨Exec.zmagic, 4096, 3000, 0, 0, 0, 0, 0⟩ 9216 7096 ∧
    ∀ s dev x current, Faults ⟨Exec.zmagic, 4096, 3000, 0, 0, 0, 0, 0⟩ 9216 7096 1 0x4001234 s dev x current →
      Post (doNoPageFrom 0x4001234 1 current s dev)
        (fun r => Loads dev x 7096 (pageOffset (1 * 0x4000000) 0x4001234) 0x4001234 s r.1) (fun _ => False) := by
  have haccepted : Accepted ⟨Exec.zmagic, 4096, 3000, 0, 0, 0, 0, 0⟩ 9216 7096 :=
    ⟨false, 0x1FFFC, _, rfl, by decide⟩
  exact ⟨haccepted, (noPage_loads_iff haccepted (by decide) (by decide)).1.mpr (by decide)⟩

/-- A program with a page of text and data of more than 2 GB, so that the sizes wrap. It is accepted, and its first
page is cleared instead of loaded. -/
theorem noPage_clears : ∃ ex s dev x current, Accepted ex 5120 0x80002000 ∧
    Faults ex 5120 0x80002000 1 0x4000000 s dev x current ∧
    ¬ Post (doNoPageFrom 0x4000000 1 current s dev)
      (fun r => Loads dev x 0x80002000 (pageOffset (1 * 0x4000000) 0x4000000) 0x4000000 s r.1) (fun _ => False) := by
  have haccepted : Accepted ⟨Exec.zmagic, 0x1000, 0x80001000, 0x7FFFE000, 0x7FFFDC00, 0, 0, 0⟩ 5120 0x80002000 :=
    ⟨false, 0x1FFFC, _, rfl, by decide⟩
  have hfaults := freeMem_faults 1 0x4000000 0 haccepted
  refine ⟨_, _, _, _, _, haccepted, hfaults, fun hloads => ?_⟩
  have hreach := inReach_of_loads hfaults (by decide) (by decide) (by decide)
    ⟨0, by decide, by rw [onesFile_byte (by omega)]; decide⟩ hloads
  exact absurd hreach.2 (by decide)

end

end Linux011.Mm
