import Mathlib.Logic.Function.Basic
import Linux011.Lib.Outcome

/-!
# mm/memory.c

Physical pages are named by their number (`address >> 12`), linear addresses are plain numbers. The
page directory and the page tables live in physical pages themselves; a page is seen either as a
table of 1024 entries (`pageTable`) or as 4096 bytes (`page`), and `get_free_page` clears both views.
No page is in use under both views at once (`Mm.Invariant`).

`oom()` kills the caller and does not return: the functions below stop with `Stop.oom` and the state
it finds. `panic()` stops with its text. The `printk` warnings are left out, and so is
`invalidate()`: the model has no TLB.
-/

namespace Linux011.Mm

/-- `LOW_MEM >> 12` -/
def lowMem : Nat := 0x100000 / 4096

/-- `PAGING_MEMORY >> 12`, the length of `mem_map` -/
def pagingPages : Nat := 15 * 1024 * 1024 / 4096

/-- `USED` -/
def used : UInt8 := 100

/-- `MAP_NR` -/
def mapNr (page : Nat) : Nat := page - lowMem

def nrTasks : Nat := 64

/-- One entry of a page table or of the page directory: the bits of the 32-bit word that the code
reads or writes. -/
structure Pte where
  frame : Nat          -- bits 12..31
  present : Bool         -- bit 0
  rw : Bool              -- bit 1
  dirty : Bool           -- bit 6, set by the processor on a store
  deriving DecidableEq, Repr

namespace Pte

/-- The word `0`. -/
def zero : Pte := ⟨0, false, false, false⟩

/-- The word `page | 7`. -/
def user (page : Nat) : Pte := ⟨page, true, true, false⟩

/-- `entry &= ~2` -/
def readOnly (e : Pte) : Pte := { e with rw := false }

/-- `entry |= 2` -/
def writable (e : Pte) : Pte := { e with rw := true }

/-- What the processor leaves after a store through the entry. -/
def touched (e : Pte) : Pte := { e with dirty := true }

end Pte

/-- The fields of `task_struct` that the paging code reads. `copy_mem` gives `start_code` and the
bases of `ldt[1]` and `ldt[2]` the same value. -/
structure Task where
  startCode : Nat
  endData : Nat
  executable : Option Nat
  codeLimit : Nat
  dataLimit : Nat
  deriving DecidableEq, Repr

structure Mem where
  highMemory : Nat
  memMap : Nat → UInt8
  pgDir : Nat → Pte
  pageTable : Nat → Nat → Pte
  page : Nat → Nat → UInt8
  task : Nat → Option Task
  iCount : Nat → Nat       -- `i_count` of the executables' inodes

inductive Stop where
  | oom (s : Mem)
  | panic (msg : String)
  | die (msg : String)       -- `die()`: an exception kills the task

/-- Index into the page directory: `(address >> 20) & 0xffc`, in entries. -/
def dirIndex (address : Nat) : Nat := address / 0x400000 % 1024

/-- Index into a page table: `(address >> 12) & 0x3ff`. -/
def tableIndex (address : Nat) : Nat := address / 4096 % 1024

namespace Mem

def setCount (s : Mem) (nr : Nat) (v : UInt8) : Mem :=
  { s with memMap := Function.update s.memMap nr v }

def setDir (s : Mem) (d : Nat) (e : Pte) : Mem :=
  { s with pgDir := Function.update s.pgDir d e }

def setPte (s : Mem) (table : Nat) (i : Nat) (e : Pte) : Mem :=
  { s with pageTable :=
      Function.update s.pageTable table (Function.update (s.pageTable table) i e) }

def setPage (s : Mem) (f : Nat) (bytes : Nat → UInt8) : Mem :=
  { s with page := Function.update s.page f bytes }

def setTask (s : Mem) (n : Nat) (t : Option Task) : Mem :=
  { s with task := Function.update s.task n t }

def setICount (s : Mem) (x : Nat) (n : Nat) : Mem :=
  { s with iCount := Function.update s.iCount x n }

theorem setPte_comm {s : Mem} {t t' i j : Nat} {e e' : Pte} (h : t ≠ t') :
    (s.setPte t' i e).setPte t j e' = (s.setPte t j e').setPte t' i e := by
  simp only [setPte, Function.update_of_ne h, Function.update_of_ne h.symm,
    Function.update_comm h.symm]

@[simp] theorem setPte_setPte {s : Mem} {t i : Nat} {e e' : Pte} :
    (s.setPte t i e).setPte t i e' = s.setPte t i e' := by
  simp [setPte]

end Mem

/-! ## Page frames -/

/-- The backward `scasb` over `mem_map`: the highest free entry below `n`. -/
def scanFree (memMap : Nat → UInt8) : Nat → Option Nat
  | 0 => none
  | n + 1 => if memMap n = 0 then some n else scanFree memMap n

/-- `get_free_page`, with `none` for the result `0`. -/
def getFreePage (s : Mem) : Option Nat × Mem :=
  match scanFree s.memMap pagingPages with
  | none => (none, s)
  | some nr =>
    let page := nr + lowMem
    (some page,
      { s with
        memMap := Function.update s.memMap nr 1
        pageTable := Function.update s.pageTable page (fun _ => Pte.zero)
        page := Function.update s.page page (fun _ => 0) })

def freePage (addr : Nat) (s : Mem) : Except Stop Mem :=
  if addr < lowMem then .ok s
  else if addr ≥ s.highMemory then .error (.panic "trying to free nonexistent page")
  else if s.memMap (mapNr addr) ≠ 0 then
    .ok (s.setCount (mapNr addr) (s.memMap (mapNr addr) - 1))
  else .error (.panic "trying to free free page")

/-! ## Whole page tables -/

/-- The body of the inner loop of `free_page_tables`. -/
def freeEntry (table : Nat) (s : Mem) (i : Nat) : Except Stop Mem := do
  let e := s.pageTable table i
  let s ← if e.present then freePage e.frame s else .ok s
  return s.setPte table i Pte.zero

/-- The inner loop of `free_page_tables`. -/
def freeTable (table : Nat) (s : Mem) : Except Stop Mem :=
  (List.range 1024).foldlM (freeEntry table) s

/-- The outer loop of `free_page_tables`: `n` directory entries from `d` on. -/
def freeDirs : (n : Nat) → (d : Nat) → Mem → Except Stop Mem
  | 0, _, s => .ok s
  | n + 1, d, s =>
    if (s.pgDir d).present then do
      let table := (s.pgDir d).frame
      let s ← freeTable table s
      let s ← freePage table s
      freeDirs n (d + 1) (s.setDir d Pte.zero)
    else freeDirs n (d + 1) s

/-- `free_page_tables`; `size` is rounded up to whole directory entries. -/
def freePageTables (from_ size : Nat) (s : Mem) : Except Stop Mem :=
  if from_ % 0x400000 ≠ 0 then .error (.panic "free_page_tables called with wrong alignment")
  else if from_ = 0 then .error (.panic "Trying to free up swapper memory space")
  else freeDirs ((size + 0x3fffff) / 0x400000) (dirIndex from_) s

/-- The body of the inner loop of `copy_page_tables`. A page below `LOW_MEM` is neither counted nor
write-protected in the parent. -/
def copyEntry (fromTable toTable : Nat) (s : Mem) (i : Nat) : Mem :=
  let thisPage := s.pageTable fromTable i
  if thisPage.present then
    let thisPage := thisPage.readOnly
    let s := s.setPte toTable i thisPage
    if lowMem ≤ thisPage.frame then
      let s := s.setPte fromTable i thisPage
      s.setCount (mapNr thisPage.frame) (s.memMap (mapNr thisPage.frame) + 1)
    else s
  else s

/-- The inner loop of `copy_page_tables` over the first `nr` entries of a table. -/
def copyTable (nr fromTable toTable : Nat) (s : Mem) : Mem :=
  (List.range nr).foldl (copyEntry fromTable toTable) s

/-- The outer loop of `copy_page_tables`; `false` is the return value `-1`. -/
def copyDirs (nr : Nat) : (n : Nat) → (fromDir toDir : Nat) → Mem → Except Stop (Bool × Mem)
  | 0, _, _, s => .ok (true, s)
  | n + 1, fromDir, toDir, s =>
    if (s.pgDir toDir).present then .error (.panic "copy_page_tables: already exist")
    else if (s.pgDir fromDir).present then
      match getFreePage s with
      | (none, s) => .ok (false, s)
      | (some toTable, s) =>
        let s := s.setDir toDir (Pte.user toTable)
        let s := copyTable nr (s.pgDir fromDir).frame toTable s
        copyDirs nr n (fromDir + 1) (toDir + 1) s
    else copyDirs nr n (fromDir + 1) (toDir + 1) s

def copyPageTables (from_ to_ size : Nat) (s : Mem) : Except Stop (Bool × Mem) :=
  if from_ % 0x400000 ≠ 0 ∨ to_ % 0x400000 ≠ 0 then
    .error (.panic "copy_page_tables called with wrong alignment")
  else
    copyDirs (if from_ = 0 then 0xA0 else 1024) ((size + 0x3fffff) / 0x400000)
      (dirIndex from_) (dirIndex to_) s

/-! ## Single pages -/

/-- `put_page`, with `none` for the result `0`. -/
def putPage (page : Nat) (address : Nat) (s : Mem) : Option Nat × Mem :=
  let d := dirIndex address
  if (s.pgDir d).present then
    (some page, s.setPte (s.pgDir d).frame (tableIndex address) (Pte.user page))
  else
    match getFreePage s with
    | (none, s) => (none, s)
    | (some tmp, s) =>
      (some page, (s.setDir d (Pte.user tmp)).setPte tmp (tableIndex address) (Pte.user page))

/-- `un_wp_page` on entry `i` of a page table. A page below `LOW_MEM` is always copied, and its
count is left alone. -/
def unWpPage (table : Nat) (i : Nat) (s : Mem) : Except Stop Mem :=
  let e := s.pageTable table i
  if lowMem ≤ e.frame ∧ s.memMap (mapNr e.frame) = 1 then
    .ok (s.setPte table i e.writable)
  else
    match getFreePage s with
    | (none, s) => .error (.oom s)
    | (some newPage, s) =>
      let s := if lowMem ≤ e.frame
        then s.setCount (mapNr e.frame) (s.memMap (mapNr e.frame) - 1) else s
      let s := s.setPte table i (Pte.user newPage)
      .ok (s.setPage newPage (s.page e.frame))

/-- `do_wp_page`: the write-protection fault on a present page. -/
def doWpPage (address : Nat) (s : Mem) : Except Stop Mem :=
  unWpPage (s.pgDir (dirIndex address)).frame (tableIndex address) s

def writeVerify (address : Nat) (s : Mem) : Except Stop Mem :=
  let page := s.pgDir (dirIndex address)
  if page.present then
    let e := s.pageTable page.frame (tableIndex address)
    if e.present ∧ ¬ e.rw then unWpPage page.frame (tableIndex address) s else .ok s
  else .ok s

def getEmptyPage (address : Nat) (s : Mem) : Except Stop Mem :=
  match getFreePage s with
  | (none, s) => .error (.oom s)
  | (some tmp, s) =>
    match putPage tmp address s with
    | (some _, s) => .ok s
    | (none, s) => do
      let s ← freePage tmp s
      .error (.oom s)

/-! ## Demand loading and sharing -/

/-- The page table of the current task in `try_to_share`, allocated when there is none. -/
def shareTable (toDir : Nat) (s : Mem) : Except Stop (Nat × Mem) :=
  if (s.pgDir toDir).present then .ok ((s.pgDir toDir).frame, s)
  else
    match getFreePage s with
    | (some to_, s) => .ok (to_, s.setDir toDir (Pte.user to_))
    | (none, s) => .error (.oom s)

/-- `try_to_share(address, p)` for the task `current`. -/
def tryToShare (address : Nat) (p current : Task) (s : Mem) : Except Stop (Bool × Mem) :=
  let fromDir := dirIndex address + dirIndex p.startCode
  let toDir := dirIndex address + dirIndex current.startCode
  let from_ := s.pgDir fromDir
  let physAddr := s.pageTable from_.frame (tableIndex address)
  if ¬ from_.present then .ok (false, s)
  else if ¬ (physAddr.present ∧ ¬ physAddr.dirty) then .ok (false, s)
  else if physAddr.frame ≥ s.highMemory ∨ physAddr.frame < lowMem then .ok (false, s)
  else do
    let (to_, s) ← shareTable toDir s
    if (s.pageTable to_ (tableIndex address)).present then
      .error (.panic "try_to_share: to_page already exists")
    else
      let s := s.setPte from_.frame (tableIndex address)
        (s.pageTable from_.frame (tableIndex address)).readOnly
      let s := s.setPte to_ (tableIndex address) (s.pageTable from_.frame (tableIndex address))
      .ok (true, s.setCount (mapNr physAddr.frame) (s.memMap (mapNr physAddr.frame) + 1))

/-- The loop of `share_page` over the tasks `n, n - 1, …, 1`, for the task `current` in slot `cur`
and an address relative to its code segment. -/
def sharePageLoop (address cur : Nat) (current : Task) : (n : Nat) → Mem → Except Stop (Bool × Mem)
  | 0, s => .ok (false, s)
  | n + 1, s =>
    match s.task (n + 1) with
    | none => sharePageLoop address cur current n s
    | some p =>
      if cur = n + 1 ∨ p.executable ≠ current.executable then
        sharePageLoop address cur current n s
      else do
        let (shared, s) ← tryToShare address p current s
        if shared then .ok (true, s) else sharePageLoop address cur current n s

def sharePage (address cur : Nat) (current : Task) (s : Mem) : Except Stop (Bool × Mem) :=
  match current.executable with
  | none => .ok (false, s)
  | some x =>
    if s.iCount x < 2 then .ok (false, s)
    else sharePageLoop address cur current (nrTasks - 1) s

/-- What `bmap` and `bread_page` deliver for a logical block of an executable: `none` for a hole or
a block that could not be read. -/
abbrev ExeFile := Nat → Nat → Option (Nat → UInt8)

/-- The page that the slow path of `do_no_page` builds for offset `tmp`: four blocks of the file
behind the header block, `bread_page` leaving a missing block zero, and zeroes from `end_data` on. -/
def filePage (file : ExeFile) (exe endData tmp : Nat) (k : Nat) : UInt8 :=
  if endData ≤ tmp + k then 0
  else
    match file exe (1 + tmp / 1024 + k / 1024) with
    | some block => block (k % 1024)
    | none => 0

/-- `do_no_page(address)` for the task `current` in slot `cur`. -/
def doNoPage (file : ExeFile) (address cur : Nat) (current : Task) (s : Mem) : Except Stop Mem :=
  let address := address / 4096 * 4096
  let tmp := address - current.startCode
  match current.executable with
  | none => getEmptyPage address s
  | some x =>
    if tmp ≥ current.endData then getEmptyPage address s
    else do
      let (shared, s) ← sharePage tmp cur current s
      if shared then .ok s
      else
        match getFreePage s with
        | (none, s) => .error (.oom s)
        | (some page, s) =>
          let s := s.setPage page (filePage file x current.endData tmp)
          match putPage page address s with
          | (some _, s) => .ok s
          | (none, s) => do
            let s ← freePage page s
            .error (.oom s)

/-- `mem_init`, in pages. -/
def memInit (startMem endMem : Nat) (s : Mem) : Mem :=
  { s with
    highMemory := endMem
    memMap := fun i => if mapNr startMem ≤ i ∧ i < mapNr startMem + (endMem - startMem) then 0
      else used }

end Linux011.Mm
