import Linux011.Mm.Counting

/-!
# kernel/fork.c

`copy_mem` and the part of `copy_process` that concerns memory: the page of the new task structure,
the entry in the task table, the shared executable. Registers, signals, times and files are left out.
-/

namespace Linux011.Mm

open Linux011.Lib

/-- `verify_area` from `start` on, page by page. -/
def verifyPages : (n : Nat) → (start : Nat) → Mem → Except Stop Mem
  | 0, _, s => .ok s
  | n + 1, start, s => do
    let s ← writeVerify start s
    verifyPages n ((start + 4096) % 2 ^ 32) s

/-- `verify_area(addr, size)`. The sum of `size` and the offset is an `int`, and the loop runs while it
is positive. -/
def verifyArea (current : Task) (addr : Nat) (size : Int) (s : Mem) : Except Stop Mem :=
  let size := Int.bmod (size + addr % 4096) (2 ^ 32)
  verifyPages ((size + 4095) / 4096).toNat ((addr / 4096 * 4096 + current.startCode) % 2 ^ 32) s

/-- `copy_mem`, with `false` for `-ENOMEM`. -/
def copyMem (nr : Nat) (current : Task) (s : Mem) : Except Stop (Bool × Mem) :=
  if current.dataLimit < current.codeLimit then .error (.panic "Bad data_limit")
  else do
    let newDataBase := nr * 0x4000000
    let (done, s) ← copyPageTables current.startCode newDataBase current.dataLimit s
    if done then return (true, s)
    else do
      let s ← freePageTables newDataBase current.dataLimit s
      return (false, s)

/-- `copy_process(nr, …)`: the page of the new task structure, or `none` for `-EAGAIN`. -/
def copyProcess (nr : Nat) (current : Task) (s : Mem) : Except Stop (Option Nat × Mem) :=
  match getFreePage s with
  | (none, s) => .ok (none, s)
  | (some p, s) => do
    let s := s.setTask nr (some { current with startCode := nr * 0x4000000 })
    let (done, s) ← copyMem nr current s
    if done then
      match current.executable with
      | some x => return (some p, s.setICount x (s.iCount x + 1))
      | none => return (some p, s)
    else do
      let s ← freePage p (s.setTask nr none)
      return (none, s)

variable {lo : Nat} {own : Nat → Nat} {s : Mem}

theorem copyMem_single {current : Task} {nr : Nat} {s' : Mem} (halign : current.startCode % 0x400000 = 0)
    (hzero : current.startCode ≠ 0) (hdata : current.dataLimit = 0x4000000) (hcode : current.codeLimit ≤ 0x4000000)
    (hdirs : copyDirs 1024 16 (dirIndex current.startCode) (dirIndex (nr * 0x4000000)) s = .ok (true, s')) :
    copyMem nr current s = .ok (true, s') := by
  have hpages : copyPageTables current.startCode (nr * 0x4000000) current.dataLimit s = .ok (true, s') := by
    rw [copyPageTables, if_neg (by omega), if_neg hzero, hdata]
    exact hdirs
  rw [copyMem, if_neg (by omega)]
  simp only [hpages]
  rfl

theorem copyProcess_copied {current : Task} {nr p : Nat} {s' : Mem} (hget : (getFreePage s).1 = some p)
    (hcopy : copyMem nr current ((getFreePage s).2.setTask nr (some { current with startCode := nr * 0x4000000 })) =
      .ok (true, s')) :
    copyProcess nr current s = .ok (some p, match current.executable with
      | some x => s'.setICount x (s'.iCount x + 1)
      | none => s') := by
  rw [copyProcess, getFreePage_of hget]
  simp only [hcopy]
  cases current.executable with
  | none => rfl
  | some x => rfl

/-- The part of a state that `entry` and the invariant are about. -/
structure Alike (s s' : Mem) : Prop where
  high : s'.highMemory = s.highMemory
  count : s'.memMap = s.memMap
  dir : s'.pgDir = s.pgDir
  table : s'.pageTable = s.pageTable
  page : s'.page = s.page

namespace Alike

variable {s' : Mem}

theorem entry (h : Alike s s') : entry s' = Mm.entry s := by
  funext p
  simp only [Mm.entry, tableOf, h.dir, h.table]

theorem seen (h : Alike s s') : seen s' = Mm.seen s := by
  funext p
  simp only [Mm.seen, h.entry, h.page]

theorem inv (h : Alike s s') (hinv : Inv lo own s) : Inv lo own s' := by
  have hview : view s' own = view s own := by
    unfold view
    rw [h.entry, h.count]
    have hdir : tableOf s' = tableOf s := by
      funext d
      simp only [tableOf, h.dir]
    rw [hdir]
  have hf := hinv.fixed
  refine ⟨?_, hf.lo_le, ?_, ?_, ?_, ?_, ?_⟩
  · rw [hview, h.high]
    exact hinv.good
  · rw [h.high]
    exact hf.high_le
  · rw [h.high, h.count]
    exact hf.reserved
  · rw [h.dir]
    exact hf.kernel_dir
  · rw [h.dir, h.table]
    exact hf.kernel_low
  · rw [h.dir, h.table]
    exact hf.kernel_rw

end Alike

/-- A fork that goes through copies the parent's pages up to its data limit; one that runs out of memory
leaves everybody's pages as they were. -/
theorem copyMem_spec (h : Inv lo own s) {nr cur : Nat} {current : Task} (hn : 1 ≤ nr ∧ nr < 64)
    (hcur : 1 ≤ cur ∧ cur < 64) (hne : cur ≠ nr) (hstart : current.startCode = cur * 0x4000000)
    (hlim : current.dataLimit ≤ 0x4000000) :
    Post (copyMem nr current s)
      (fun r => Inv lo own r.2 ∧ Frame (· / 16384 = nr) s r.2 ∧
        (r.1 = true → ∀ o < current.dataLimit, Copied s r.2 (taskPage cur o) (taskPage nr o)))
      (fun e => ∃ msg, e = .panic msg ∧ msg ≠ "trying to free free page") := by
  unfold copyMem
  split
  · exact Post.stop ⟨_, rfl, by decide⟩
  · next hlimit =>
    rw [hstart]
    refine Post.bind ((copyPageTables_spec h hcur hn hne hlim).mono (fun _ hr => hr) ?_) ?_
    · rintro e ⟨rfl, -⟩
      exact ⟨_, rfl, by decide⟩
    · rintro ⟨done, s₁⟩ ⟨h₁, hframe, hcopied⟩
      cases done with
      | true =>
        refine Post.ret ⟨h₁, hframe, fun _ o ho => ?_⟩
        exact hcopied rfl (o / 4096) (by omega)
      | false =>
        refine Post.bind ((freePageTables_spec h₁ hn hlim).mono (fun _ hr => hr)
          (fun _ hf => hf.elim)) ?_
        rintro s₂ ⟨h₂, hframe₂, -⟩
        exact Post.ret ⟨h₂, hframe.trans (hframe₂.mono fun p hp => by omega), fun hf => by cases hf⟩

/-- What a successful `copy_process` leaves: the child runs in slot `nr` with a copy of the parent's
space, and its structure has a page of its own. -/
structure Forked (lo : Nat) (own : Nat → Nat) (s : Mem) (cur nr : Nat) (current : Task) (p : Nat)
    (s' : Mem) : Prop where
  main : lo ≤ p ∧ p < s.highMemory
  inv : Inv lo (Function.update own p 1) s'
  high : s'.highMemory = s.highMemory
  task : s'.task = Function.update s.task nr (some { current with startCode := nr * 0x4000000 })
  ent : ∀ q ∈ userPages, q / 16384 ≠ nr → (entry s' q).target = (entry s q).target
  seen : ∀ q ∈ userPages, q / 16384 ≠ nr → Mm.seen s' q = Mm.seen s q
  copied : ∀ o < current.dataLimit, Copied s s' (taskPage cur o) (taskPage nr o)

theorem Forked.sysInv {σ : Sys} {cur nr p : Nat} {current : Task} (h : SysInv lo σ)
    (hf : Forked lo σ.own σ.mem cur nr current p s) :
    SysInv lo ⟨s, Function.update σ.own p 1⟩ := by
  refine ⟨hf.inv, ?_, ?_⟩
  · intro n t htask
    change s.task n = some t at htask
    rw [hf.task] at htask
    rcases eq_or_ne n nr with rfl | hne
    · rw [Function.update_self] at htask
      cases htask
      rfl
    · rw [Function.update_of_ne hne] at htask
      exact h.layout n t htask
  · intro f hfo
    show lo ≤ f ∧ f < s.highMemory
    rw [hf.high]
    rcases eq_or_ne f p with rfl | hne
    · exact hf.main
    · change Function.update σ.own p 1 f = 1 at hfo
      rw [Function.update_of_ne hne] at hfo
      exact h.own_main f hfo

/-- A fork without enough memory leaves the task table and everybody's pages as they were. -/
structure NotForked (lo : Nat) (own : Nat → Nat) (s : Mem) (nr : Nat) (s' : Mem) : Prop where
  inv : Inv lo own s'
  same : Same s s'
  ent : ∀ q ∈ userPages, q / 16384 ≠ nr → (entry s' q).target = (entry s q).target
  seen : ∀ q ∈ userPages, q / 16384 ≠ nr → Mm.seen s' q = Mm.seen s q

/-- `copy_process` for a free slot, whichever way it returns. -/
theorem copyProcess_spec (h : Inv lo own s) {nr cur : Nat} {current : Task} (hn : 1 ≤ nr ∧ nr < 64)
    (hcur : 1 ≤ cur ∧ cur < 64) (hne : cur ≠ nr) (hstart : current.startCode = cur * 0x4000000)
    (hlim : current.dataLimit ≤ 0x4000000) (hfree : s.task nr = none) :
    Post (copyProcess nr current s)
      (fun r => (∃ p, r.1 = some p ∧ Forked lo own s cur nr current p r.2) ∨
        (r.1 = none ∧ NotForked lo own s nr r.2))
      (fun e => ∃ msg, e = .panic msg ∧ msg ≠ "trying to free free page") := by
  unfold copyProcess
  rcases getFreePage_spec h with hget | ⟨f, s₁, hget, g⟩
  · simp only [hget]
    exact Post.ret (Or.inr ⟨rfl, h, Same.refl s, fun _ _ _ => rfl, fun _ _ _ => rfl⟩)
  simp only [hget]
  obtain ⟨s₂, hs₂⟩ : ∃ s₂, s₁.setTask nr (some { current with startCode := nr * 0x4000000 }) = s₂ :=
    ⟨_, rfl⟩
  have halike : Alike s₁ s₂ := by subst hs₂; exact ⟨rfl, rfl, rfl, rfl, rfl⟩
  have hbefore : ∀ q ∈ userPages, (entry s₂ q).target = (entry s q).target ∧
      Mm.seen s₂ q = Mm.seen s q := by
    intro q hq
    rw [halike.entry, halike.seen, g.ent, g.seen hq]
    exact ⟨rfl, rfl⟩
  rw [hs₂]
  refine Post.bind (copyMem_spec (halike.inv g.inv) hn hcur hne hstart hlim) ?_
  rintro ⟨done, s₃⟩ ⟨h₃, hframe, hcopied⟩
  simp only at h₃ hframe hcopied
  have htask : s₃.task = Function.update s.task nr
      (some { current with startCode := nr * 0x4000000 }) := by
    rw [hframe.same.task, ← hs₂, ← g.same.task]
    rfl
  have hhigh : s₃.highMemory = s.highMemory := by
    rw [hframe.same.high, halike.high, g.same.high]
  cases done with
  | true =>
    -- the child has its copy, and what follows only counts the executable
    have hdone : ∀ x c, Forked lo own s cur nr current f (s₃.setICount x c) := by
      intro x c
      have halike' : Alike s₃ (s₃.setICount x c) := ⟨rfl, rfl, rfl, rfl, rfl⟩
      refine ⟨g.main, halike'.inv h₃, hhigh, htask, ?_, ?_, ?_⟩
      · intro q hq hqn
        rw [halike'.entry, hframe.ref hq hqn, (hbefore q hq).1]
      · intro q hq hqn
        rw [halike'.seen, hframe.seen q hq hqn, (hbefore q hq).2]
      · intro o ho
        have hc := hcopied rfl o ho
        have hb := hbefore _ (taskPage_mem hcur (Nat.lt_of_lt_of_le ho hlim))
        constructor
        · rw [halike'.entry, hc.target, hb.1]
        · rw [halike'.seen, hc.seen, hb.2]
    simp only [if_true]
    cases hexe : current.executable with
    | some x => exact Post.ret (Or.inl ⟨f, rfl, hdone x _⟩)
    | none =>
      have hsame : s₃.setICount 0 (s₃.iCount 0) = s₃ := by simp [Mem.setICount]
      have hf := hdone 0 (s₃.iCount 0)
      rw [hsame] at hf
      exact Post.ret (Or.inl ⟨f, rfl, hf⟩)
  | false =>
    -- there was no page for a page table: the page of the task structure goes back
    simp only [Bool.false_eq_true, if_false]
    have halike' : Alike s₃ (s₃.setTask nr none) := ⟨rfl, rfl, rfl, rfl, rfl⟩
    have hmain : lo ≤ f ∧ f < (s₃.setTask nr none).highMemory :=
      ⟨g.main.1, by rw [halike'.high, hhigh]; exact g.main.2⟩
    refine Post.bind ((freePage_owned (halike'.inv h₃) hmain (by simp)).mono (fun _ hs => hs)
      (fun _ hf => hf.elim)) ?_
    rintro s₄ ⟨h₄, hframe₄, -⟩
    rw [own_restore g.own_zero] at h₄
    refine Post.ret (Or.inr ⟨rfl, h₄, ⟨?_, ?_, ?_⟩, ?_, ?_⟩)
    · rw [hframe₄.same.high, halike'.high, hhigh]
    · rw [hframe₄.same.task]
      show Function.update s₃.task nr none = s.task
      rw [htask, Function.update_idem, ← hfree, Function.update_eq_self]
    · rw [hframe₄.same.iCount]
      show s₃.iCount = s.iCount
      rw [hframe.same.iCount, ← hs₂]
      exact g.same.iCount
    · intro q hq hqn
      rw [hframe₄.ref hq not_false, halike'.entry, hframe.ref hq hqn, (hbefore q hq).1]
    · intro q hq hqn
      rw [hframe₄.seen q hq not_false, halike'.seen, hframe.seen q hq hqn, (hbefore q hq).2]

end Linux011.Mm
