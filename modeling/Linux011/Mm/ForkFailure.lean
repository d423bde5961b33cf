import Linux011.Mm.Undo

/-!
# A fork that runs out of memory

`copy_process` with what it does to the file table and to the inodes. When there is no page left it has
already written the task table, taken pages, raised counters and write-protected the parent; `copyMem_undo`
and `copyProcess_undo` say what is left of that when it returns `-EAGAIN`. They ask that the space of the
free slot be empty (`Vacant`), which `Mm.Lifecycle` shows for every run.
-/

namespace Linux011.Mm

open Linux011.Lib

def nrOpen : Nat := 20

def eagain : Int := 11

/-- The fields of `task_struct` that say what a task has open. -/
structure Files where
  filp : Nat → Option Nat
  pwd : Option Nat
  root : Option Nat

structure Kernel where
  mem : Mem
  files : Nat → Files          -- by slot of the task table
  fCount : Nat → UInt16

namespace Kernel

def countFile (fCount : Nat → UInt16) : Option Nat → Nat → UInt16
  | some f => Function.update fCount f (fCount f + 1)
  | none => fCount

def countInode (s : Mem) : Option Nat → Mem
  | some x => s.setICount x ((s.iCount x + 1) % 2 ^ 16)
  | none => s

/-- `copy_process(nr, …)` for the task in slot `cur`. Registers, signals and times are left out; the child
has the parent's `filp`. -/
def copyProcess (nr cur : Nat) (current : Task) (lastPid : Int) (k : Kernel) :
    Except Stop (Int × Kernel) :=
  match getFreePage k.mem with
  | (none, s) => .ok (-eagain, { k with mem := s })
  | (some p, s) => do
    let files := Function.update k.files nr (k.files cur)
    let s := s.setTask nr (some { current with startCode := nr * 0x4000000 })
    let r ← copyMem nr current s
    if r.1 then
      let fCount := (List.range nrOpen).foldl (fun c i => countFile c ((files nr).filp i)) k.fCount
      let s := countInode r.2 (k.files cur).pwd
      let s := countInode s (k.files cur).root
      let s := countInode s current.executable
      return (lastPid, ⟨s, files, fCount⟩)
    else
      let s ← freePage p (r.2.setTask nr none)
      return (-eagain, ⟨s, files, k.fCount⟩)

/-- A page is missing, for the task structure or for one of the page tables. -/
def RunsOut (nr : Nat) (current : Task) (k : Kernel) : Prop :=
  (getFreePage k.mem).1 = none ∨ ∃ p s s', getFreePage k.mem = (some p, s) ∧
    copyPageTables current.startCode (nr * 0x4000000) current.dataLimit
      (s.setTask nr (some { current with startCode := nr * 0x4000000 })) = .ok (false, s')

end Kernel

variable {lo : Nat} {own : Nat → Nat} {s s' : Mem} {cur nr : Nat} {current : Task}

/-- Slot `nr` has no page table. -/
def Vacant (s : Mem) (nr : Nat) : Prop := ∀ d, d / 16 = nr → s.pgDir d = Pte.zero

/-- What a task structure says about segments, for a task that may fork: task 0 has one page table,
everybody else at most 64 MB. -/
structure Bounded (cur : Nat) (current : Task) : Prop where
  start : current.startCode = cur * 0x4000000
  code : current.codeLimit ≤ current.dataLimit
  data : current.dataLimit ≤ 0x4000000
  first : cur = 0 → current.dataLimit ≤ 0xA0000

/-- What `copy_page_tables` and `free_page_tables` leave of the state when they work on slot `nr` for the
task in slot `cur`. -/
structure Kept (lo cur nr : Nat) (s s' : Mem) : Prop where
  frame : Frame (· / 16384 = nr) s s'
  quiet : Quiet lo s s'
  tables : Untouched (fun d => d / 16 = cur ∨ d / 16 = nr) s s'

theorem Untouched.mono {S S' : Nat → Prop} (h : Untouched S s s') (hS : ∀ d, S d → S' d) :
    Untouched S' s s' := fun d t hd => h d t fun hSd => hd (hS d hSd)

/-- `copy_page_tables` on an empty slot cannot panic. -/
theorem copyPageTables_kept (h : Inv lo own s) (hcur : cur < 64) (hnr : 1 ≤ nr ∧ nr < 64) (hne : cur ≠ nr)
    (hb : Bounded cur current) (hfree : Vacant s nr) :
    Post (copyPageTables current.startCode (nr * 0x4000000) current.dataLimit s)
      (fun r => Inv lo own r.2 ∧ Kept lo cur nr s r.2 ∧
        Filled (16 * nr) ((current.dataLimit + 0x3fffff) / 0x400000) s r.2)
      (fun _ => False) := by
  have hfirst := hb.first
  have hdata := hb.data
  have habsent : ∀ d, d / 16 = nr → (s.pgDir d).present ≠ true := by
    intro d hd
    rw [hfree d hd]
    exact Bool.false_ne_true
  have hnr' : dirIndex (nr * 0x4000000) = 16 * nr := by
    unfold dirIndex
    omega
  rw [hb.start]
  rcases Nat.eq_zero_or_pos cur with rfl | hpos
  · -- The first fork copies the table of the kernel's own low memory.
    have hspec := copyPageTables_kernel h hnr (Nat.le_trans (hfirst rfl) (by decide))
    have hdirs := copyDirs_kernel_dirs (n := (current.dataLimit + 0x3fffff) / 0x400000) h (by omega)
      (mem_userDirs.mpr (show 16 ≤ 16 * nr ∧ 16 * nr < 1024 by omega))
    rw [Nat.zero_mul]
    rw [copyPageTables, if_neg (by omega), if_pos rfl, hnr'] at hspec ⊢
    refine (hspec.and hdirs).mono ?_ ?_
    · rintro r ⟨⟨h', hframe⟩, hquiet, hfilled, hsame⟩
      exact ⟨h', ⟨hframe, hquiet, hsame.mono fun _ hf => hf.elim⟩, hfilled⟩
    · rintro e ⟨-, hpres⟩
      exact habsent (16 * nr) (by omega) hpres
  · have hspec := copyPageTables_spec h ⟨hpos, hcur⟩ hnr hne hdata
    have hcur' : dirIndex (cur * 0x4000000) = 16 * cur := by
      unfold dirIndex
      omega
    have hdirs := copyDirs_dirs ((current.dataLimit + 0x3fffff) / 0x400000) (16 * cur) (16 * nr) s h
      (by omega) (by omega) (by omega) (by omega) (by omega) (by omega) (by omega)
    rw [copyPageTables, if_neg (by omega), if_neg (by omega), hcur', hnr'] at hspec ⊢
    refine (hspec.and hdirs).mono ?_ ?_
    · rintro r ⟨⟨h', hframe, -⟩, hquiet, hfilled, hsame⟩
      exact ⟨h', ⟨hframe, hquiet, hsame.mono fun d hd => Or.inl (by omega)⟩, hfilled⟩
    · rintro e ⟨⟨-, d, hd, hpres⟩, -⟩
      exact habsent d hd hpres

theorem freePageTables_kept (h : Inv lo own s) (hnr : 1 ≤ nr ∧ nr < 64) {size : Nat} (hsize : size ≤ 0x4000000) :
    Post (freePageTables (nr * 0x4000000) size s)
      (fun s' => Inv lo own s' ∧ Frame (· / 16384 = nr) s s' ∧ Quiet lo s s' ∧
        Untouched (· / 16 = nr) s s' ∧ Emptied (16 * nr) ((size + 0x3fffff) / 0x400000) s s')
      (fun _ => False) := by
  have hspec := freePageTables_spec h hnr hsize
  have hdir : dirIndex (nr * 0x4000000) = 16 * nr := by
    unfold dirIndex
    omega
  have hdirs := freeDirs_dirs ((size + 0x3fffff) / 0x400000) (16 * nr) s h (by omega) (by omega)
  rw [freePageTables, if_neg (by omega), if_neg (by omega), hdir] at hspec ⊢
  refine (hspec.and hdirs).mono ?_ fun _ hf => hf.1
  rintro s' ⟨⟨h', hframe, -⟩, hquiet, hempty, hsame⟩
  exact ⟨h', hframe.mono fun p hp => by omega, hquiet, hsame.mono fun d hd => by omega, hempty⟩

/-- The rollback of `copy_mem` gives the slot back as it was. -/
theorem copyMem_undo (h : Inv lo own s) (hcur : cur < 64) (hnr : 1 ≤ nr ∧ nr < 64) (hne : cur ≠ nr)
    (hb : Bounded cur current) (hfree : Vacant s nr) :
    Post (copyMem nr current s)
      (fun r => Inv lo own r.2 ∧ Kept lo cur nr s r.2 ∧
        (r.1 = true → Filled (16 * nr) ((current.dataLimit + 0x3fffff) / 0x400000) s r.2) ∧
        (r.1 = false → r.2.pgDir = s.pgDir ∧
          ∃ s', copyPageTables current.startCode (nr * 0x4000000) current.dataLimit s = .ok (false, s')))
      (fun _ => False) := by
  have hcode := hb.code
  have hdata := hb.data
  unfold copyMem
  rw [if_neg (by omega)]
  have hcopy := copyPageTables_kept h hcur hnr hne hb hfree
  refine Post.bind ((hcopy.and (Post.self _)).mono (fun _ hr => hr) fun _ hf => hf.1) ?_
  rintro ⟨done, s₁⟩ ⟨⟨h₁, hkept₁, hfilled⟩, hres⟩
  cases done with
  | true => exact Post.ret ⟨h₁, hkept₁, fun _ => hfilled, fun hf => by cases hf⟩
  | false =>
    refine Post.bind (freePageTables_kept h₁ hnr hb.data) ?_
    rintro s₂ ⟨h₂, hframe₂, hquiet₂, hsame₂, hempty₂⟩
    refine Post.ret ⟨h₂, ⟨hkept₁.frame.trans hframe₂, hkept₁.quiet.trans hquiet₂, ?_⟩,
      fun hf => (by cases hf), fun _ => ⟨?_, s₁, hres⟩⟩
    · intro d t hd ht
      rw [hsame₂ d t (fun hd' => hd (Or.inr hd')) (hfilled.tableOf ht), hkept₁.tables d t hd ht]
    · -- What the copy put into the directory is what the rollback takes out.
      funext d
      rw [hempty₂ d]
      rcases hfilled d with heq | ⟨h1, h2, -, f, hf⟩
      · rw [heq]
        split
        · next hd => rw [hfree d (by omega)]
        · rfl
      · rw [hf, if_pos ⟨h1, h2, rfl⟩, hfree d (by omega)]

theorem copyMem_done {s₁ : Mem} (hmem : copyMem nr current s = .ok (true, s₁)) :
    copyPageTables current.startCode (nr * 0x4000000) current.dataLimit s ≠ .ok (false, s') := by
  intro hcopy
  unfold copyMem at hmem
  split at hmem
  · cases hmem
  · obtain ⟨r, hr, hrest⟩ := ok_of_bind hmem
    rw [hcopy] at hr
    cases hr
    obtain ⟨s₂, -, hs₂⟩ := ok_of_bind hrest
    cases hs₂

/-! ## What a failing fork leaves -/

/-- Outside of the parent no entry has changed; the parent's may have lost their write permission. -/
theorem Kept.entry {p : Nat} (h : Kept lo cur nr s s') (hdir : s'.pgDir = s.pgDir) (hfree : Vacant s nr)
    (hp : p ∈ userPages) : Mm.entry s' p = Mm.entry s p ∨
      (p / 16384 = cur ∧ Mm.entry s' p = (Mm.entry s p).readOnly) := by
  have htable : tableOf s' (p / 1024) = tableOf s (p / 1024) := by simp only [tableOf, hdir]
  by_cases hn : p / 16384 = nr
  · left
    have hnone : tableOf s (p / 1024) = none := by
      rw [tableOf_eq_none (dir_mem hp), hfree (p / 1024) (by omega)]
      rfl
    rw [entry_of_none (htable.trans hnone), entry_of_none hnone]
  · by_cases hc : p / 16384 = cur
    · exact (h.frame.ent p hp hn).imp_right fun he => ⟨hc, he⟩
    · left
      cases ht : tableOf s (p / 1024) with
      | none => rw [entry_of_none (htable.trans ht), entry_of_none ht]
      | some t =>
        rw [entry_of_table (htable.trans ht) rfl, entry_of_table ht rfl,
          h.tables (p / 1024) t (by omega) ht]

theorem Kept.seen {p : Nat} (h : Kept lo cur nr s s') (hdir : s'.pgDir = s.pgDir) (hfree : Vacant s nr)
    (hp : p ∈ userPages) : Mm.seen s' p = Mm.seen s p := by
  by_cases hn : p / 16384 = nr
  · have habsent : ∀ s₁ : Mem, s₁.pgDir = s.pgDir → Mm.seen s₁ p = none := by
      intro s₁ h₁
      have hnone : tableOf s₁ (p / 1024) = none := by
        rw [tableOf_eq_none (dir_mem hp), h₁, hfree (p / 1024) (by omega)]
        rfl
      exact seen_of_zero (entry_of_none hnone)
    rw [habsent s' hdir, habsent s rfl]
  · exact h.frame.seen p hp hn

/-- The byte that the processor finds at a linear address. -/
def look (s : Mem) (address : Nat) : Option UInt8 :=
  let e := walk s address
  if e.present then some (s.page e.frame (address % 4096)) else none

theorem look_eq {a : Nat} (hp : a / 4096 ∈ userPages) :
    look s a = (seen s (a / 4096)).map fun r => r.2 (a % 4096) := by
  unfold look seen
  rw [walk_eq hp]
  cases hpres : (entry s (a / 4096)).present with
  | true => simp [Pte.target_of_present hpres, hpres]
  | false => simp [Pte.target_of_absent hpres, hpres]

/-- Every task finds the same bytes again, task 0 in the kernel's low memory and the others in user
space. -/
theorem look_congr {n o : Nat} {t : Task} (h : Inv lo own s) (hquiet : Quiet lo s s') (hdir : s'.pgDir = s.pgDir)
    (hseen : ∀ p ∈ userPages, seen s' p = seen s p) (hn : n < 64) (hb : Bounded n t) (ho : o < t.dataLimit) :
    look s' (n * 0x4000000 + o) = look s (n * 0x4000000 + o) := by
  have hdata := hb.data
  have hfirst := hb.first
  rcases Nat.eq_zero_or_pos n with rfl | hpos
  · have hlow := hfirst rfl
    have hd : dirIndex (0 * 0x4000000 + o) = 0 := by
      unfold dirIndex
      omega
    have hi : tableIndex (0 * 0x4000000 + o) < 0xA0 := by
      unfold tableIndex
      omega
    have hlo := h.fixed.lo_le
    have hwalk : walk s' (0 * 0x4000000 + o) = walk s (0 * 0x4000000 + o) := by
      simp only [walk, hd, hdir,
        hquiet.table _ (Nat.lt_of_lt_of_le (h.fixed.kernel_dir 0 (Nat.zero_lt_succ 15)) hlo)]
    unfold look
    rw [hwalk]
    by_cases hpres : (walk s (0 * 0x4000000 + o)).present = true
    · have hframe : (walk s (0 * 0x4000000 + o)).frame < lowMem := by
        unfold walk at hpres ⊢
        rw [hd] at hpres ⊢
        split
        · exact h.fixed.kernel_low _ hi
        · next habs =>
          rw [if_neg habs] at hpres
          cases hpres
      simp only [hpres, if_true, hquiet.page _ (Nat.lt_of_lt_of_le hframe hlo)]
    · simp only [hpres]
      rfl
  · have hp : (n * 0x4000000 + o) / 4096 ∈ userPages := by
      rw [address_page]
      exact taskPage_mem ⟨hpos, hn⟩ (by omega)
    rw [look_eq hp, look_eq hp, hseen _ hp]

/-- `k'` is `k` as far as anybody can tell: counters, directory, task table, file table and inodes are as
before, and so is what every task sees; the parent may have to fault before it writes. -/
structure Undone (cur nr : Nat) (k k' : Kernel) : Prop where
  memMap : k'.mem.memMap = k.mem.memMap
  pgDir : k'.mem.pgDir = k.mem.pgDir
  task : k'.mem.task = k.mem.task
  fCount : k'.fCount = k.fCount
  iCount : k'.mem.iCount = k.mem.iCount
  files : ∀ n, n ≠ nr → k'.files n = k.files n
  entries : ∀ p ∈ userPages, entry k'.mem p = entry k.mem p ∨
    (p / 16384 = cur ∧ entry k'.mem p = (entry k.mem p).readOnly)
  content : ∀ n t, k.mem.task n = some t → ∀ o < t.dataLimit,
    look k'.mem (n * 0x4000000 + o) = look k.mem (n * 0x4000000 + o)

/-- The child of a fork that goes through. -/
structure Born (lo : Nat) (own : Nat → Nat) (nr : Nat) (current : Task) (p : Nat) (k k' : Kernel) : Prop where
  main : lo ≤ p ∧ p < k.mem.highMemory
  inv : Inv lo (Function.update own p 1) k'.mem
  high : k'.mem.highMemory = k.mem.highMemory
  task : k'.mem.task =
    Function.update k.mem.task nr (some { current with startCode := nr * 0x4000000 })
  dirs : Filled (16 * nr) ((current.dataLimit + 0x3fffff) / 0x400000) k.mem k'.mem

theorem countInode_alike (s : Mem) (x : Option Nat) : Alike s (Kernel.countInode s x) := by
  cases x <;> exact ⟨rfl, rfl, rfl, rfl, rfl⟩

theorem countInode_task (s : Mem) (x : Option Nat) : (Kernel.countInode s x).task = s.task := by
  cases x <;> rfl

theorem Alike.trans {s'' : Mem} (h : Alike s s') (h' : Alike s' s'') : Alike s s'' :=
  ⟨h'.high.trans h.high, h'.count.trans h.count, h'.dir.trans h.dir, h'.table.trans h.table,
    h'.page.trans h.page⟩

/-- When the page for the task structure is there, it is `copy_page_tables` that decides. -/
theorem Kernel.runsOut_iff {k : Kernel} {p : Nat} {s₁ : Mem} (hget : getFreePage k.mem = (some p, s₁)) :
    k.RunsOut nr current ↔ ∃ s', copyPageTables current.startCode (nr * 0x4000000)
      current.dataLimit (s₁.setTask nr (some { current with startCode := nr * 0x4000000 })) =
        .ok (false, s') := by
  simp only [Kernel.RunsOut, hget]
  constructor
  · rintro (hnot | ⟨p', s', s'', heq, hcopy⟩)
    · cases hnot
    · cases heq
      exact ⟨s'', hcopy⟩
  · rintro ⟨s', hcopy⟩
    exact Or.inr ⟨p, s₁, s', rfl, hcopy⟩

/-- The entries and the contents of all pages are as before, but for the parent's write permission. -/
structure Restored (lo cur : Nat) (s s' : Mem) : Prop where
  quiet : Quiet lo s s'
  dir : s'.pgDir = s.pgDir
  entries : ∀ q ∈ userPages, entry s' q = entry s q ∨ (q / 16384 = cur ∧ entry s' q = (entry s q).readOnly)
  seen : ∀ q ∈ userPages, Mm.seen s' q = Mm.seen s q

/-- The counters follow from the entries. -/
theorem Restored.counts (h : Restored lo cur s s') (hinv : Inv lo own s) (hinv' : Inv lo own s') :
    s'.memMap = s.memMap := by
  refine counts_eq hinv hinv' h.quiet h.dir fun q hq => ?_
  rcases h.entries q hq with he | ⟨-, he⟩ <;> rw [he]
  rfl

/-- The page of the task structure goes back when all else has been taken back. -/
theorem Restored.freePage {p : Nat} (h : Restored lo cur s s') (hinv : Inv lo own s) (ho : own p = 0)
    (hmain : lo ≤ p ∧ p < s.highMemory) (hinv' : Inv lo (Function.update own p 1) s') :
    Post (freePage p s') (fun s'' => Inv lo own s'' ∧ Same s' s'' ∧ Restored lo cur s s'') (fun _ => False) := by
  have hmain' : lo ≤ p ∧ p < s'.highMemory := by
    rw [h.quiet.high]
    exact hmain
  have hfreed := freePage_owned hinv' hmain' (by simp)
  refine (hfreed.and (Post.self _)).mono ?_ fun _ hf => hf.1
  rintro s'' ⟨⟨hinv'', hframe, hdir, hent, hpage⟩, hfree⟩
  rw [own_restore ho] at hinv''
  refine ⟨hinv'', hframe.same, h.quiet.trans (freePage_quiet hinv.fixed.lo_le (Or.inr hmain') hfree), hdir.trans h.dir,
    fun q hq => ?_, fun q hq => ?_⟩
  · rw [hent]
    exact h.entries q hq
  · rw [hframe.seen q hq not_false]
    exact h.seen q hq

/-- `copy_process` for a free and empty slot: it returns the child's pid, or `-EAGAIN` with everything as
it was. -/
theorem copyProcess_undo {k : Kernel} (lastPid : Int) (h : Inv lo own k.mem) (hcur : cur < 64)
    (hnr : 1 ≤ nr ∧ nr < 64) (hne : cur ≠ nr) (hb : Bounded cur current)
    (htasks : ∀ n t, k.mem.task n = some t → n < 64 ∧ Bounded n t) (hnone : k.mem.task nr = none)
    (hfree : Vacant k.mem nr) :
    Post (k.copyProcess nr cur current lastPid)
      (fun r => (k.RunsOut nr current ∧ r.1 = -eagain ∧ Inv lo own r.2.mem ∧
          r.2.mem.highMemory = k.mem.highMemory ∧ Undone cur nr k r.2) ∨
        (¬ k.RunsOut nr current ∧ r.1 = lastPid ∧ ∃ p, (getFreePage k.mem).1 = some p ∧
          Born lo own nr current p k r.2))
      (fun _ => False) := by
  unfold Kernel.copyProcess
  rcases getFreePage_spec h with hget | ⟨p, s₁, hget, g⟩
  · have hruns : k.RunsOut nr current := Or.inl (by rw [hget])
    simp only [hget]
    refine Post.ret (Or.inl ⟨hruns, rfl, h, rfl, rfl, rfl, rfl, rfl, rfl, fun _ _ => rfl,
      fun _ _ => Or.inl rfl, fun _ _ _ _ _ => rfl⟩)
  have hruns : k.RunsOut nr current ↔ _ := Kernel.runsOut_iff hget
  simp only [hget]
  obtain ⟨s₂, hs₂⟩ : ∃ s₂, s₁.setTask nr (some { current with startCode := nr * 0x4000000 }) = s₂ :=
    ⟨_, rfl⟩
  have halike : Alike s₁ s₂ := by subst hs₂; exact ⟨rfl, rfl, rfl, rfl, rfl⟩
  have hquiet₂ : Quiet lo k.mem s₂ := by
    have hquiet := getFreePage_quiet h.fixed
    rw [hget] at hquiet
    exact hquiet.trans (Quiet.of_eq halike.count halike.page halike.table halike.high)
  have hdir₂ : s₂.pgDir = k.mem.pgDir := halike.dir.trans g.dir
  have hvacant₂ : Vacant s₂ nr := fun d hd => by rw [hdir₂]; exact hfree d hd
  rw [hs₂] at hruns ⊢
  refine Post.bind (((copyMem_undo (halike.inv g.inv) hcur hnr hne hb hvacant₂).and (Post.self _)).mono
    (fun _ hr => hr) fun _ hf => hf.1) ?_
  rintro ⟨done, s₃⟩ ⟨⟨h₃, hkept, hfilled, hback⟩, hmem⟩
  simp only at h₃ hkept hfilled hback
  have htask : s₃.task = Function.update k.mem.task nr
      (some { current with startCode := nr * 0x4000000 }) := by
    rw [hkept.frame.same.task, ← hs₂, ← g.same.task]
    rfl
  have hquiet₃ : Quiet lo k.mem s₃ := hquiet₂.trans hkept.quiet
  cases done with
  | true =>
    -- the counts of files and inodes do not touch the pages
    have hnot : ¬ k.RunsOut nr current := by
      rw [hruns]
      rintro ⟨s', hcopy⟩
      exact copyMem_done hmem hcopy
    simp only [if_true]
    obtain ⟨s₄, hs₄⟩ : ∃ s₄, Kernel.countInode (Kernel.countInode (Kernel.countInode s₃
        (k.files cur).pwd) (k.files cur).root) current.executable = s₄ := ⟨_, rfl⟩
    have halike₄ : Alike s₃ s₄ := by
      rw [← hs₄]
      exact ((countInode_alike _ _).trans (countInode_alike _ _)).trans (countInode_alike _ _)
    have htask₄ : s₄.task = s₃.task := by
      rw [← hs₄, countInode_task, countInode_task, countInode_task]
    rw [hs₄]
    refine Post.ret (Or.inr ⟨hnot, rfl, p, rfl, g.main, halike₄.inv h₃, halike₄.high.trans hquiet₃.high,
      htask₄.trans htask, fun d => ?_⟩)
    rw [halike₄.dir, ← hdir₂]
    exact hfilled rfl d
  | false =>
    -- `copy_mem` has freed the tables that it had made, and the last page goes back
    obtain ⟨hdir₃, hcopy⟩ := hback rfl
    simp only [Bool.false_eq_true, if_false]
    have halike₃ : Alike s₃ (s₃.setTask nr none) := ⟨rfl, rfl, rfl, rfl, rfl⟩
    have hrestored : Restored lo cur k.mem (s₃.setTask nr none) := by
      refine ⟨hquiet₃.trans (Quiet.of_eq halike₃.count halike₃.page halike₃.table halike₃.high),
        by rw [halike₃.dir, hdir₃, hdir₂], fun q hq => ?_, fun q hq => ?_⟩
      · rw [halike₃.entry, ← g.ent, ← halike.entry]
        exact hkept.entry hdir₃ hvacant₂ hq
      · rw [halike₃.seen, hkept.seen hdir₃ hvacant₂ hq, halike.seen, g.seen hq]
    refine Post.bind (hrestored.freePage h g.own_zero g.main (halike₃.inv h₃)) ?_
    rintro s₄ ⟨h₄, hsame₄, hrestored₄⟩
    refine Post.ret (Or.inl ⟨hruns.mpr hcopy, rfl, h₄, hrestored₄.quiet.high, hrestored₄.counts h h₄, hrestored₄.dir,
      ?_, rfl, ?_, ?_, hrestored₄.entries, ?_⟩)
    · rw [hsame₄.task]
      show Function.update s₃.task nr none = k.mem.task
      rw [htask, Function.update_idem, ← hnone, Function.update_eq_self]
    · rw [hsame₄.iCount]
      show s₃.iCount = k.mem.iCount
      rw [hkept.frame.same.iCount, ← hs₂]
      exact g.same.iCount
    · exact fun n hn => Function.update_of_ne hn _ _
    · intro n t ht o ho
      obtain ⟨hn, hbound⟩ := htasks n t ht
      exact look_congr h hrestored₄.quiet hrestored₄.dir hrestored₄.seen hn hbound ho

end Linux011.Mm
