import Linux011.Lib.Run
import Linux011.Mm.Access

/-!
# The page counters over whole runs

The operations of the paging code as steps of one system, from the state that `head.s` and `mem_init`
leave. Next to the memory the system carries `own`, the number of kernel owners of each page other
than page tables: task structures, pipe buffers, argument pages, and pages a handler has taken and not
yet mapped. The operations are called as their callers call them (`Op.Allowed`): a task's space is
`[n * 64 MB, (n + 1) * 64 MB)`, a page is mapped only at an absent entry, and only an owner frees a
page.
-/

namespace Linux011.Mm

open Linux011.Lib

structure Sys where
  mem : Mem
  own : Nat → Nat

inductive Op where
  | copyPageTables (m n size : Nat)      -- from task `m` to task `n`
  | copyKernel (n size : Nat)            -- the first fork, from base 0
  | freePageTables (n size : Nat)
  | doNoPage (address cur : Nat)
  | doWpPage (address : Nat)
  | writeVerify (address : Nat)
  | tryToShare (address m n : Nat)       -- from task `m`, for task `n`
  | putPage (page address : Nat)
  | getEmptyPage (address : Nat)
  | getFreePage
  | freePage (page : Nat)
  | store (address : Nat) (v : UInt8)
  | tasks (task : Nat → Option Task) (iCount : Nat → Nat)   -- `fork`, `execve`, `exit`

namespace Op

/-- What the callers guarantee. -/
def Allowed (σ : Sys) : Op → Prop
  | copyPageTables m n size => (1 ≤ m ∧ m < 64) ∧ (1 ≤ n ∧ n < 64) ∧ m ≠ n ∧ size ≤ 0x4000000
  | copyKernel n size => (1 ≤ n ∧ n < 64) ∧ size ≤ 0x400000
  | freePageTables n size => (1 ≤ n ∧ n < 64) ∧ size ≤ 0x4000000
  | doNoPage address cur => (1 ≤ cur ∧ cur < 64) ∧ address / 0x4000000 = cur ∧
      (entry σ.mem (address / 4096)).target = none
  | doWpPage address => address / 4096 ∈ userPages ∧ (entry σ.mem (address / 4096)).present = true
  | writeVerify address => address / 4096 ∈ userPages ∨ dirIndex address < 16
  | tryToShare address m n => (1 ≤ m ∧ m < 64) ∧ (1 ≤ n ∧ n < 64) ∧ m ≠ n ∧ address < 0x4000000 ∧
      (entry σ.mem (taskPage n address)).target = none
  | putPage page address => σ.own page = 1 ∧ address / 4096 ∈ userPages ∧
      (entry σ.mem (address / 4096)).target = none
  | getEmptyPage address => address / 4096 ∈ userPages ∧
      (entry σ.mem (address / 4096)).target = none
  | getFreePage => True
  | freePage page => σ.own page = 1 ∨ page < lowMem
  | store address _ => address / 4096 ∈ userPages ∧ (entry σ.mem (address / 4096)).present = true
  | tasks task _ => ∀ n t, task n = some t → t.startCode = n * 0x4000000

/-- The operation, with the page it takes or gives away entered into `own`. -/
def exec (file : ExeFile) (σ : Sys) : Op → Except Stop Sys
  | copyPageTables m n size => do
    let r ← Mm.copyPageTables (m * 0x4000000) (n * 0x4000000) size σ.mem
    return ⟨r.2, σ.own⟩
  | copyKernel n size => do
    let r ← Mm.copyPageTables 0 (n * 0x4000000) size σ.mem
    return ⟨r.2, σ.own⟩
  | freePageTables n size => do
    let s ← Mm.freePageTables (n * 0x4000000) size σ.mem
    return ⟨s, σ.own⟩
  | doNoPage address cur =>
    match σ.mem.task cur with
    | none => .ok σ
    | some current => do
      let s ← Mm.doNoPage file address cur current σ.mem
      return ⟨s, σ.own⟩
  | doWpPage address => do
    let s ← Mm.doWpPage address σ.mem
    return ⟨s, σ.own⟩
  | writeVerify address => do
    let s ← Mm.writeVerify address σ.mem
    return ⟨s, σ.own⟩
  | tryToShare address m n =>
    match σ.mem.task m, σ.mem.task n with
    | some p, some current => do
      let r ← Mm.tryToShare address p current σ.mem
      return ⟨r.2, σ.own⟩
    | _, _ => .ok σ
  | putPage page address =>
    match Mm.putPage page address σ.mem with
    | (some _, s) => .ok ⟨s, Function.update σ.own page 0⟩
    | (none, s) => .ok ⟨s, σ.own⟩
  | getEmptyPage address => do
    let s ← Mm.getEmptyPage address σ.mem
    return ⟨s, σ.own⟩
  | getFreePage =>
    match Mm.getFreePage σ.mem with
    | (some page, s) => .ok ⟨s, Function.update σ.own page 1⟩
    | (none, s) => .ok ⟨s, σ.own⟩
  | freePage page => do
    let s ← Mm.freePage page σ.mem
    return ⟨s, if page < lowMem then σ.own else Function.update σ.own page 0⟩
  | store address v => .ok ⟨σ.mem.store address v, σ.own⟩
  | tasks task iCount => .ok ⟨{ σ.mem with task, iCount }, σ.own⟩

end Op

/-- One step: an operation returns, or it kills its caller for want of memory. -/
inductive Step (file : ExeFile) (σ : Sys) : Sys → Prop
  | done {σ'} (op : Op) (hallowed : op.Allowed σ) (hexec : op.exec file σ = .ok σ') : Step file σ σ'
  | killed {s} (op : Op) (hallowed : op.Allowed σ) (hexec : op.exec file σ = .error (.oom s)) :
      Step file σ ⟨s, σ.own⟩

/-- `INIT_TASK`: base 0, limit 640 kB. -/
def initTask : Task := ⟨0, 0, none, 0xA0000, 0xA0000⟩

/-- `setup_paging` maps the first 16 MB one to one, writable; `mem_init` frees main memory. Memory
may hold anything. -/
def boot (startMem endMem : Nat) (page : Nat → Nat → UInt8) : Sys where
  mem := memInit startMem endMem
    { highMemory := 0
      memMap := fun _ => 0
      pgDir := fun d => if d < 4 then Pte.user (d + 1) else Pte.zero
      pageTable := fun t i => if 1 ≤ t ∧ t ≤ 4 then Pte.user ((t - 1) * 1024 + i) else Pte.zero
      page
      task := fun n => if n = 0 then some initTask else none
      iCount := fun _ => 0 }
  own := fun _ => 0

/-- The states of every run from `boot`. -/
def Reachable (file : ExeFile) (startMem endMem : Nat) (page : Nat → Nat → UInt8) (σ : Sys) : Prop :=
  Relation.ReflTransGen (Step file) (boot startMem endMem page) σ

structure SysInv (lo : Nat) (σ : Sys) : Prop where
  inv : Inv lo σ.own σ.mem
  layout : Layout σ.mem
  own_main : ∀ f, σ.own f = 1 → lo ≤ f ∧ f < σ.mem.highMemory

theorem Layout.same {s s' : Mem} (h : Layout s) (hsame : Same s s') : Layout s' := by
  intro n t ht
  rw [hsame.task] at ht
  exact h n t ht

variable {file : ExeFile} {lo hi : Nat} {page : Nat → Nat → UInt8} {σ σ' : Sys}

theorem entry_boot (p : Nat) : entry (boot lo hi page).mem p = Pte.zero := by
  apply entry_of_none
  unfold tableOf
  rw [if_neg]
  rintro ⟨h1, -, h3⟩
  have hnot : ¬ p / 1024 < 4 := by omega
  simp [boot, memInit, hnot, Pte.zero] at h3

theorem tableOf_boot (d : Nat) : tableOf (boot lo hi page).mem d = none := by
  unfold tableOf
  rw [if_neg]
  rintro ⟨h1, -, h3⟩
  have hnot : ¬ d < 4 := by omega
  simp [boot, memInit, hnot, Pte.zero] at h3

theorem boot_inv (h1 : lowMem ≤ lo) (h3 : hi ≤ lowMem + pagingPages) :
    SysInv lo (boot lo hi page) := by
  have href : ∀ p, (view (boot lo hi page).mem (boot lo hi page).own).ref p = none := by
    intro p
    rw [view_ref, entry_boot]
    rfl
  have hdir : ∀ d, (view (boot lo hi page).mem (boot lo hi page).own).dir d = none := tableOf_boot
  -- No page table is in use yet, so that nothing is mapped and nothing is shared.
  refine ⟨⟨⟨?_, ?_, ?_, ?_, ?_, ?_, ?_, ?_, ?_⟩, ⟨h1, h3, ?_, ?_, ?_, ?_⟩⟩, ?_, ?_⟩
  · intro d _ t ht
    rw [hdir] at ht
    cases ht
  · intro p _ hpres
    rw [view_ent, entry_boot] at hpres
    cases hpres
  · intro p _ f hf
    rw [href] at hf
    cases hf
  · intro p _ f hf
    rw [href] at hf
    cases hf
  · intro p _ q _ f hf
    rw [href] at hf
    cases hf
  · intro p _ q _ f hf
    rw [href] at hf
    cases hf
  · intro f hf1 hf2
    have hp : (view (boot lo hi page).mem (boot lo hi page).own).pteRefs f = 0 :=
      refs_eq_zero_iff.mpr fun p _ hr => by rw [href] at hr; cases hr
    have hd : (view (boot lo hi page).mem (boot lo hi page).own).dirRefs f = 0 :=
      refs_eq_zero_iff.mpr fun d _ hr => by rw [hdir] at hr; cases hr
    rw [hp, hd, view_cnt (by omega)]
    change f < hi at hf2
    have hfree : mapNr lo ≤ mapNr f ∧ mapNr f < mapNr lo + (hi - lo) := by
      unfold mapNr
      omega
    simp [boot, memInit, hfree]
  · intro f _ _
    have hd : (view (boot lo hi page).mem (boot lo hi page).own).dirRefs f = 0 :=
      refs_eq_zero_iff.mpr fun d _ hr => by rw [hdir] at hr; cases hr
    rw [hd]
    exact Nat.zero_le _
  · intro f _ _ _
    exact refs_eq_zero_iff.mpr fun p _ hr => by rw [href] at hr; cases hr
  · -- outside the main memory `mem_init` leaves the pages used
    intro nr hnr hout
    change nr + lowMem < lo ∨ hi ≤ nr + lowMem at hout
    have hused : ¬ (mapNr lo ≤ nr ∧ nr < mapNr lo + (hi - lo)) := by
      unfold mapNr
      omega
    simp [boot, memInit, hused, used]
  · intro d hd
    show (if d < 4 then Pte.user (d + 1) else Pte.zero).frame < lowMem
    split
    · show d + 1 < 256
      omega
    · exact Nat.zero_lt_succ _
  · intro i hi'
    show (Pte.user ((1 - 1) * 1024 + i)).frame < lowMem
    show (1 - 1) * 1024 + i < 256
    omega
  · intro d hd i hpres
    obtain ⟨t, ht⟩ : ∃ t, ((boot lo hi page).mem.pgDir d).frame = t := ⟨_, rfl⟩
    rw [ht] at hpres ⊢
    change (if 1 ≤ t ∧ t ≤ 4 then Pte.user ((t - 1) * 1024 + i) else Pte.zero).present = true at hpres
    show (if 1 ≤ t ∧ t ≤ 4 then Pte.user ((t - 1) * 1024 + i) else Pte.zero).rw = true
    split at hpres
    · next htab => rw [if_pos htab]; rfl
    · cases hpres
  · intro n t ht
    change (if n = 0 then some initTask else none) = some t at ht
    split at ht
    · next hn =>
      cases ht
      rw [hn]
      rfl
    · cases ht
  · rintro f ⟨⟩

theorem SysInv.step {s' : Mem} (h : SysInv lo σ) {S : Nat → Prop} (h' : Inv lo σ.own s')
    (hframe : Frame S σ.mem s') : SysInv lo ⟨s', σ.own⟩ :=
  ⟨h', h.layout.same hframe.same, fun f hf => by
    show lo ≤ f ∧ f < s'.highMemory
    rw [hframe.same.high]
    exact h.own_main f hf⟩

/-- The same for an operation that takes a page from the kernel or gives it one. -/
theorem SysInv.step_own {s' : Mem} {f n : Nat} (h : SysInv lo σ) {S : Nat → Prop}
    (h' : Inv lo (Function.update σ.own f n) s') (hframe : Frame S σ.mem s')
    (hf : n = 1 → lo ≤ f ∧ f < σ.mem.highMemory) :
    SysInv lo ⟨s', Function.update σ.own f n⟩ := by
  refine ⟨h', h.layout.same hframe.same, fun g hg => ?_⟩
  show lo ≤ g ∧ g < s'.highMemory
  rw [hframe.same.high]
  change Function.update σ.own f n g = 1 at hg
  rcases eq_or_ne g f with rfl | hne
  · rw [Function.update_self] at hg
    exact hf hg
  · rw [Function.update_of_ne hne] at hg
    exact h.own_main g hg

/-- The ways an operation can stop short: the caller is killed, or a fork finds its new space in use. -/
def Stopped (lo : Nat) (σ : Sys) (e : Stop) : Prop :=
  (∃ s', e = .oom s' ∧ SysInv lo ⟨s', σ.own⟩) ∨ e = .panic "copy_page_tables: already exist"

/-- Every operation keeps the invariant, whichever way it ends. -/
theorem Op.exec_spec (h : SysInv lo σ) {op : Op} (hallowed : op.Allowed σ) :
    Post (op.exec file σ) (SysInv lo) (Stopped lo σ) := by
  have killed : ∀ e, e = Stop.oom σ.mem → Stopped lo σ e := fun e he => Or.inl ⟨σ.mem, he, h⟩
  have killed' : ∀ e, (∃ s', e = Stop.oom s' ∧ Inv lo σ.own s' ∧ Frame (fun _ => False) σ.mem s') →
      Stopped lo σ e := by
    rintro e ⟨s', he, h', hframe⟩
    exact Or.inl ⟨s', he, h.step h' hframe⟩
  cases op with
  | copyPageTables m n size =>
    obtain ⟨hm, hn, hmn, hsize⟩ := hallowed
    refine Post.bind ((copyPageTables_spec h.inv hm hn hmn hsize).mono (fun _ hr => hr) ?_) ?_
    · rintro e ⟨he, -⟩
      exact Or.inr he
    · rintro r ⟨h', hframe, -⟩
      exact Post.ret (h.step h' hframe)
  | copyKernel n size =>
    obtain ⟨hn, hsize⟩ := hallowed
    refine Post.bind ((copyPageTables_kernel h.inv hn hsize).mono (fun _ hr => hr) ?_) ?_
    · exact fun e he => Or.inr he
    · rintro r ⟨h', hframe⟩
      exact Post.ret (h.step h' hframe)
  | freePageTables n size =>
    obtain ⟨hn, hsize⟩ := hallowed
    refine Post.bind ((freePageTables_spec h.inv hn hsize).mono (fun _ hr => hr)
      (fun _ hf => hf.elim)) ?_
    rintro s' ⟨h', hframe, -⟩
    exact Post.ret (h.step h' hframe)
  | doNoPage address cur =>
    obtain ⟨hcur, ha, habs⟩ := hallowed
    cases ht : σ.mem.task cur with
    | none =>
      simp only [Op.exec, ht]
      exact Post.ret h
    | some current =>
      simp only [Op.exec, ht]
      refine Post.bind ((doNoPage_spec file h.inv h.layout hcur (h.layout _ _ ht) ha habs).mono
        (fun _ hr => hr) killed') ?_
      rintro s' ⟨h', hframe, -⟩
      exact Post.ret (h.step h' hframe)
  | doWpPage address =>
    obtain ⟨hp, hpres⟩ := hallowed
    refine Post.bind ((doWpPage_spec h.inv hp hpres).mono (fun _ hr => hr) killed) ?_
    rintro s' ⟨h', hframe, -⟩
    exact Post.ret (h.step h' hframe)
  | writeVerify address =>
    rcases hallowed with hp | hd
    · refine Post.bind ((writeVerify_spec h.inv hp).mono (fun _ hr => hr) killed) ?_
      rintro s' ⟨h', hframe, -⟩
      exact Post.ret (h.step h' hframe)
    · simp only [Op.exec, writeVerify_kernel h.inv hd]
      exact Post.ret h
  | tryToShare address m n =>
    obtain ⟨hm, hn, hmn, ha, habs⟩ := hallowed
    cases hp : σ.mem.task m with
    | none =>
      simp only [Op.exec, hp]
      exact Post.ret h
    | some p =>
      cases hc : σ.mem.task n with
      | none =>
        simp only [Op.exec, hp, hc]
        exact Post.ret h
      | some current =>
        simp only [Op.exec, hp, hc]
        refine Post.bind ((tryToShare_spec h.inv hm hn hmn (h.layout _ _ hp) (h.layout _ _ hc) ha
          habs).mono (fun _ hr => hr) killed) ?_
        rintro r (⟨rfl, -⟩ | ⟨-, -, h', hframe, -⟩)
        · exact Post.ret h
        · exact Post.ret (h.step h' hframe)
  | putPage page address =>
    obtain ⟨ho, hp, habs⟩ := hallowed
    rcases putPage_spec h.inv (h.own_main _ ho) ho hp habs with hput | ⟨s', hput, h', hframe, -⟩
    · simp only [Op.exec, hput]
      exact Post.ret h
    · simp only [Op.exec, hput]
      exact Post.ret (h.step_own h' hframe (by simp))
  | getEmptyPage address =>
    obtain ⟨hp, habs⟩ := hallowed
    refine Post.bind ((getEmptyPage_spec h.inv hp habs).mono (fun _ hr => hr) killed') ?_
    rintro s' ⟨h', hframe, -⟩
    exact Post.ret (h.step h' hframe)
  | getFreePage =>
    rcases getFreePage_spec h.inv with hget | ⟨f, s', hget, g⟩
    · simp only [Op.exec, hget]
      exact Post.ret h
    · simp only [Op.exec, hget]
      exact Post.ret (h.step_own g.inv (g.frame fun _ => False) fun _ => g.main)
  | freePage page =>
    rcases hallowed with ho | hlow
    · have hmain := h.own_main _ ho
      have hnot : ¬ page < lowMem := Nat.not_lt.mpr (Nat.le_trans h.inv.fixed.lo_le hmain.1)
      refine Post.bind ((freePage_owned h.inv hmain ho).mono (fun _ hr => hr)
        (fun _ hf => hf.elim)) ?_
      rintro s' ⟨h', hframe, -⟩
      rw [if_neg hnot]
      exact Post.ret (h.step_own h' hframe (by simp))
    · simp only [Op.exec, freePage_low hlow, if_pos hlow]
      exact Post.ret h
  | store address v =>
    obtain ⟨hp, hpres⟩ := hallowed
    obtain ⟨h', hsame, -⟩ := store_spec (v := v) h.inv hp hpres
    exact Post.ret ⟨h', h.layout.same hsame, fun f hf => by
      show lo ≤ f ∧ f < (σ.mem.store address v).highMemory
      rw [hsame.high]
      exact h.own_main f hf⟩
  | tasks task iCount =>
    obtain ⟨h1, h2, h3, h4, h5, h6⟩ := h.inv.fixed
    exact Post.ret ⟨⟨h.inv.good, ⟨h1, h2, h3, h4, h5, h6⟩⟩, hallowed, h.own_main⟩

theorem Step.inv (h : SysInv lo σ) (hstep : Step file σ σ') : SysInv lo σ' := by
  cases hstep with
  | done op hallowed hexec => exact (Op.exec_spec h hallowed).of_ok _ hexec
  | killed op hallowed hexec =>
    rcases (Op.exec_spec h hallowed).of_error _ hexec with ⟨s', heq, h'⟩ | heq
    · cases heq
      exact h'
    · cases heq

theorem Reachable.inv (h1 : lowMem ≤ lo) (h2 : hi ≤ lowMem + pagingPages)
    (h : Reachable file lo hi page σ) : SysInv lo σ := by
  have hboot : SysInv lo (boot lo hi page) := boot_inv h1 h2
  exact invariant_of_run (fun _ _ hinv hstep => hstep.inv hinv) hboot h

/-- How many present user page-table entries point at page `f`. -/
def entriesOf (s : Mem) (f : Nat) : Nat :=
  (userPages.filter fun p => (entry s p).present = true ∧ (entry s p).frame = f).card

/-- How many kernel owners page `f` has, page tables among them. -/
def ownersOf (σ : Sys) (f : Nat) : Nat :=
  (userDirs.filter fun d => (σ.mem.pgDir d).present = true ∧ (σ.mem.pgDir d).frame = f).card + σ.own f

theorem pteRefs_eq (f : Nat) : (view σ.mem σ.own).pteRefs f = entriesOf σ.mem f := by
  unfold View.pteRefs refs entriesOf
  congr 1
  apply Finset.filter_congr
  intro p _
  rw [view_ref, Pte.target_eq_some]

theorem dirRefs_eq (f : Nat) : (view σ.mem σ.own).dirRefs f + σ.own f = ownersOf σ f := by
  unfold View.dirRefs refs ownersOf
  congr 2
  apply Finset.filter_congr
  intro d hd
  rw [view_dir, tableOf_eq_some]
  exact ⟨fun h => h.2, fun h => ⟨hd, h⟩⟩

/-- In every reachable state `mem_map` counts exactly, a page mapped more than once is mapped
read-only, the count is small, and no operation can stop for freeing a free page. -/
theorem mem_map_counts (hlo : lowMem ≤ lo) (hhi : hi ≤ lowMem + pagingPages)
    (h : Reachable file lo hi page σ) :
    (∀ f, lo ≤ f → f < σ.mem.highMemory →
      (σ.mem.memMap (mapNr f)).toNat = entriesOf σ.mem f + ownersOf σ f ∧
        entriesOf σ.mem f + ownersOf σ f ≤ 64) ∧
    (∀ p ∈ userPages, ∀ q ∈ userPages, p ≠ q → (entry σ.mem p).present = true →
      (entry σ.mem q).present = true → (entry σ.mem p).frame = (entry σ.mem q).frame →
        (entry σ.mem p).rw = false ∧ (entry σ.mem q).rw = false) ∧
    ∀ op : Op, op.Allowed σ →
      op.exec file σ ≠ .error (.panic "trying to free free page") := by
  have hinv := Reachable.inv hlo hhi h
  refine ⟨fun f hf1 hf2 => ?_, ?_, ?_⟩
  · have hlow : lowMem ≤ f := Nat.le_trans hlo hf1
    have hcount := hinv.inv.good.count f hf1 hf2
    have hle := hinv.inv.good.cnt_le hlo hf1 hf2
    rw [view_cnt hlow, Nat.add_assoc, view_own, dirRefs_eq, pteRefs_eq] at hcount
    rw [view_cnt hlow] at hle
    exact ⟨hcount, hcount ▸ hle⟩
  · have hshared : ∀ p ∈ userPages, ∀ q ∈ userPages, p ≠ q → (entry σ.mem p).present = true →
        (entry σ.mem q).present = true → (entry σ.mem p).frame = (entry σ.mem q).frame →
        (entry σ.mem p).rw = false := by
      intro p hp q hq hne hpp hpq heq
      cases hrw : (entry σ.mem p).rw with
      | false => rfl
      | true =>
        obtain ⟨-, hex⟩ := hinv.inv.writable hp hpp hrw
        exact absurd (heq ▸ Pte.target_of_present hpq) (hex q hq hne.symm)
    intro p hp q hq hne hpp hpq heq
    exact ⟨hshared p hp q hq hne hpp hpq heq, hshared q hq p hp hne.symm hpq hpp heq.symm⟩
  · intro op hallowed hpanic
    rcases (Op.exec_spec hinv hallowed).of_error _ hpanic with ⟨s', heq, -⟩ | heq
    · cases heq
    · exact absurd (Stop.panic.inj heq) (by decide)

/-- A machine with 16 MB, 4 MB of them buffers, where the kernel has taken a page and mapped it in the
space of task 1. -/
theorem mem_map_counts_mapped :
    ∃ σ, Reachable (fun _ _ => none) 1024 4096 (fun _ _ => 0) σ ∧
      (entry σ.mem 16384).frame = 4095 ∧ σ.mem.memMap (mapNr 4095) = 1 ∧
      (σ.mem.memMap (mapNr 4095)).toNat = entriesOf σ.mem 4095 + ownersOf σ 4095 := by
  let b := boot 1024 4096 fun _ _ => 0
  let σ₁ : Sys := ⟨(getFreePage b.mem).2, Function.update b.own 4095 1⟩
  let σ₂ : Sys := ⟨(putPage 4095 0x4000000 σ₁.mem).2, Function.update σ₁.own 4095 0⟩
  have h1 : Step (fun _ _ => none) b σ₁ := Step.done Op.getFreePage trivial rfl
  have h2 : Step (fun _ _ => none) σ₁ σ₂ :=
    Step.done (Op.putPage 4095 0x4000000) ⟨rfl, by simp, rfl⟩ rfl
  have hrun : Reachable (fun _ _ => none) 1024 4096 (fun _ _ => 0) σ₂ :=
    (Relation.ReflTransGen.refl.tail h1).tail h2
  have hcounts := mem_map_counts (by decide) (by decide) hrun
  exact ⟨σ₂, hrun, rfl, rfl, (hcounts.1 4095 (by decide) (by decide)).1⟩

end Linux011.Mm
