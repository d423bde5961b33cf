import Linux011.Mm.ForkFailure

/-!
# The address space of a slot, from fork to release

`copy_process` finds its slot empty because every page table belongs to a task that has not exited, and
lies below that task's limit (`Slots`). `World` runs fork, execve, exit and release next to the faults of
the running tasks; `Slots` holds in every state that a run reaches.
-/

namespace Linux011.Mm

open Linux011.Lib

variable {file : ExeFile} {lo hi : Nat} {page : Nat → Nat → UInt8} {s s' s'' : Mem} {a d f n t i : Nat}

/-! ## Where a page table can appear -/

/-- The task table is as before, and so is every directory entry but `d`, which has got a table at most. -/
structure DirAt (d : Nat) (s s' : Mem) : Prop where
  dir : ∀ d', s'.pgDir d' = s.pgDir d' ∨ (d' = d ∧ ∃ f, s'.pgDir d' = Pte.user f)
  task : s'.task = s.task

/-- The same for the state in which a task is killed. -/
def Stop.Leaves (P : Mem → Prop) : Stop → Prop
  | .oom s => P s
  | _ => True

namespace DirAt

theorem of_eq (h : s'.pgDir = s.pgDir) (htask : s'.task = s.task) : DirAt d s s' :=
  ⟨fun d' => Or.inl (by rw [h]), htask⟩

theorem refl (d : Nat) (s : Mem) : DirAt d s s := of_eq rfl rfl

theorem trans (h : DirAt d s s') (h' : DirAt d s' s'') : DirAt d s s'' := by
  refine ⟨fun d' => ?_, h'.task.trans h.task⟩
  rcases h'.dir d' with heq | hnew
  · rw [heq]
    exact h.dir d'
  · exact Or.inr hnew

theorem setDir : DirAt d s (s.setDir d (Pte.user f)) := by
  refine ⟨fun d' => ?_, rfl⟩
  rcases eq_or_ne d' d with rfl | hne
  · refine Or.inr ⟨rfl, f, ?_⟩
    show Function.update s.pgDir d' (Pte.user f) d' = Pte.user f
    rw [Function.update_self]
  · exact Or.inl (Function.update_of_ne hne _ _)

end DirAt

theorem getFreePage_dir (d : Nat) (s : Mem) : DirAt d s (getFreePage s).2 := by
  unfold getFreePage
  split <;> exact DirAt.of_eq rfl rfl

theorem freePage_leaves (h : DirAt d s s') :
    Post (freePage f s') (DirAt d s) (Stop.Leaves (DirAt d s)) := by
  refine ⟨fun s₁ hok => h.trans ?_, fun e he => ?_⟩
  · rw [freePage_ok hok]
    split <;> exact DirAt.of_eq rfl rfl
  unfold freePage at he
  split at he
  · cases he
  · split at he
    · cases he
      trivial
    · split at he <;> cases he
      trivial

theorem putPage_dir (f a : Nat) (s : Mem) : DirAt (dirIndex a) s (putPage f a s).2 := by
  unfold putPage
  dsimp only
  split
  · exact DirAt.of_eq rfl rfl
  · have hget := getFreePage_dir (dirIndex a) s
    cases hres : getFreePage s with
    | mk r s₁ =>
      rw [hres] at hget
      cases r with
      | none => exact hget
      | some tmp =>
        have htable : DirAt (dirIndex a) s₁ (s₁.setDir (dirIndex a) (Pte.user tmp)) := DirAt.setDir
        exact (hget.trans htable).trans (DirAt.of_eq rfl rfl)

/-- A page that `put_page` has not taken is given back before the caller dies. -/
theorem putNew_dir (f a : Nat) {s₁ : Mem} (h : DirAt (dirIndex a) s s₁) :
    Post (match putPage f a s₁ with
        | (some _, s) => Except.ok s
        | (none, s) => do
          let s ← freePage f s
          Except.error (Stop.oom s))
      (DirAt (dirIndex a) s) (Stop.Leaves (DirAt (dirIndex a) s)) := by
  have hput := h.trans (putPage_dir f a s₁)
  cases hres : putPage f a s₁ with
  | mk r s₂ =>
    rw [hres] at hput
    cases r with
    | some _ => exact Post.ret hput
    | none =>
      refine Post.bind (freePage_leaves hput) fun s₃ h₃ => ?_
      exact Post.stop h₃

theorem getEmptyPage_dir (a : Nat) (s : Mem) :
    Post (getEmptyPage a s) (DirAt (dirIndex a) s) (Stop.Leaves (DirAt (dirIndex a) s)) := by
  have hget := getFreePage_dir (dirIndex a) s
  unfold getEmptyPage
  cases hres : getFreePage s with
  | mk r s₁ =>
    rw [hres] at hget
    cases r with
    | none => exact Post.stop hget
    | some tmp => exact putNew_dir tmp a hget

theorem shareTable_dir (d : Nat) (s : Mem) :
    Post (shareTable d s) (fun r => DirAt d s r.2) (Stop.Leaves (DirAt d s)) := by
  have hget := getFreePage_dir d s
  unfold shareTable
  split
  · exact Post.ret (DirAt.refl _ s)
  · cases hres : getFreePage s with
    | mk r s₁ =>
      rw [hres] at hget
      cases r with
      | none => exact Post.stop hget
      | some tmp => exact Post.ret (hget.trans DirAt.setDir)

theorem tryToShare_dir (a : Nat) (p current : Task) (s : Mem) :
    Post (tryToShare a p current s) (fun r => DirAt (dirIndex a + dirIndex current.startCode) s r.2)
      (Stop.Leaves (DirAt (dirIndex a + dirIndex current.startCode) s)) := by
  unfold tryToShare
  dsimp only
  split
  · exact Post.ret (DirAt.refl _ s)
  split
  · exact Post.ret (DirAt.refl _ s)
  split
  · exact Post.ret (DirAt.refl _ s)
  refine Post.bind (shareTable_dir _ s) ?_
  rintro ⟨to_, s₁⟩ h₁
  dsimp only at h₁ ⊢
  split
  · exact Post.stop trivial
  · exact Post.ret (h₁.trans (DirAt.of_eq rfl rfl))

theorem sharePageLoop_dir (a cur : Nat) (current : Task) : ∀ (n : Nat) (s : Mem),
    Post (sharePageLoop a cur current n s) (fun r => DirAt (dirIndex a + dirIndex current.startCode) s r.2)
      (Stop.Leaves (DirAt (dirIndex a + dirIndex current.startCode) s))
  | 0, s => Post.ret (DirAt.refl _ s)
  | n + 1, s => by
    unfold sharePageLoop
    split
    · exact sharePageLoop_dir a cur current n s
    · next p hp =>
      split
      · exact sharePageLoop_dir a cur current n s
      · refine Post.bind (tryToShare_dir a p current s) ?_
        rintro ⟨shared, s₁⟩ h₁
        dsimp only at h₁ ⊢
        split
        · exact Post.ret h₁
        · refine (sharePageLoop_dir a cur current n s₁).mono (fun r hr => h₁.trans hr) ?_
          intro e he
          cases e with
          | oom s₂ => exact DirAt.trans h₁ he
          | panic msg => trivial
          | die msg => trivial

/-- `do_no_page` can give a table to the directory entry of the address only. -/
theorem doNoPage_dir {cur : Nat} {current : Task} (hstart : current.startCode = cur * 0x4000000)
    (ha : a / 0x4000000 = cur) :
    Post (doNoPage file a cur current s) (DirAt (dirIndex a) s) (Stop.Leaves (DirAt (dirIndex a) s)) := by
  have hpage : dirIndex (a / 4096 * 4096) = dirIndex a := by
    unfold dirIndex
    omega
  have hsum : dirIndex (a / 4096 * 4096 - current.startCode) + dirIndex current.startCode = dirIndex a := by
    rw [hstart]
    unfold dirIndex
    omega
  have hempty := getEmptyPage_dir (a / 4096 * 4096) s
  rw [hpage] at hempty
  unfold doNoPage
  dsimp only
  split
  · exact hempty
  · split
    · exact hempty
    · have hshare : Post (sharePage (a / 4096 * 4096 - current.startCode) cur current s)
          (fun r => DirAt (dirIndex a) s r.2) (Stop.Leaves (DirAt (dirIndex a) s)) := by
        unfold sharePage
        split
        · exact Post.ret (DirAt.refl _ s)
        · split
          · exact Post.ret (DirAt.refl _ s)
          · rw [← hsum]
            exact sharePageLoop_dir _ cur current _ s
      refine Post.bind hshare ?_
      rintro ⟨shared, s₁⟩ h₁
      dsimp only at h₁ ⊢
      split
      · exact Post.ret h₁
      · have hget := getFreePage_dir (dirIndex a) s₁
        cases hres : getFreePage s₁ with
        | mk r s₂ =>
          rw [hres] at hget
          cases r with
          | none => exact Post.stop (h₁.trans hget)
          | some f =>
            have hfilled : ∀ b, DirAt (dirIndex a) s (s₂.setPage f b) := fun b =>
              (h₁.trans hget).trans (DirAt.of_eq rfl rfl)
            rw [← hpage] at hfilled ⊢
            exact putNew_dir f _ (hfilled _)

/-- The write faults work on a page table that is there. -/
theorem unWpPage_dir (d t i : Nat) (s : Mem) :
    Post (unWpPage t i s) (DirAt d s) (Stop.Leaves (DirAt d s)) := by
  have hget := getFreePage_dir d s
  unfold unWpPage
  dsimp only
  split
  · exact Post.ret (DirAt.of_eq rfl rfl)
  · cases hres : getFreePage s with
    | mk r s₁ =>
      rw [hres] at hget
      cases r with
      | none => exact Post.stop hget
      | some f =>
        refine Post.ret (hget.trans ?_)
        dsimp only
        split <;> exact DirAt.of_eq rfl rfl

theorem writeVerify_dir (d a : Nat) (s : Mem) :
    Post (writeVerify a s) (DirAt d s) (Stop.Leaves (DirAt d s)) := by
  unfold writeVerify
  dsimp only
  split
  · split
    · exact unWpPage_dir d _ _ s
    · exact Post.ret (DirAt.refl d s)
  · exact Post.ret (DirAt.refl d s)

/-! ## The tasks and their page tables -/

structure World where
  kernel : Kernel
  own : Nat → Nat
  gone : Nat → Bool        -- by slot: `do_exit` has been through, `release` has not

def World.sys (w : World) : Sys := ⟨w.kernel.mem, w.own⟩

/-- Slot `n` holds a task that has not exited. -/
def World.Running (w : World) (n : Nat) (t : Task) : Prop :=
  w.kernel.mem.task n = some t ∧ w.gone n = false

/-- The faults and page operations of the task in slot `cur`. It cannot form an address beyond its
limit. -/
def Op.Within (cur limit : Nat) : Op → Prop
  | doNoPage address n => n = cur ∧ address % 0x4000000 < limit
  | putPage _ address | getEmptyPage address =>
    address / 0x4000000 = cur ∧ address % 0x4000000 < limit
  | doWpPage _ | writeVerify _ | getFreePage | freePage _ | store _ _ => True
  | copyPageTables .. | copyKernel .. | freePageTables .. | tryToShare .. | tasks .. => False

/-- The memory of `w` after something that does not concern files. -/
def World.become (w : World) (s : Mem) (own : Nat → Nat) : World :=
  { w with kernel := { w.kernel with mem := s }, own }

/-- One step: a system call of a running task, a fault, or anything that happens to files. `execve` frees
the old space and sets new limits; the argument pages come and go with `get_free_page` and `put_page`. -/
inductive World.Step (file : ExeFile) (w : World) : World → Prop
  | fork {cur nr : Nat} {current : Task} {lastPid : Int} {r : Int × Kernel} (hcur : cur < 64)
      (hrun : w.Running cur current) (hnr : 1 ≤ nr ∧ nr < 64) (hfree : w.kernel.mem.task nr = none)
      (hpid : 0 < lastPid) (hfork : w.kernel.copyProcess nr cur current lastPid = .ok r) :
      Step file w ⟨r.2,
        if r.1 < 0 then w.own else Function.update w.own ((getFreePage w.kernel.mem).1.getD 0) 1,
        Function.update w.gone nr false⟩
  | execve {cur codeLimit endData : Nat} {executable : Option Nat} {current : Task} {s₁ s₂ : Mem}
      (hcur : 1 ≤ cur ∧ cur < 64) (hrun : w.Running cur current) (hcode : codeLimit ≤ 0x4000000)
      (hfree₁ : freePageTables current.startCode current.codeLimit w.kernel.mem = .ok s₁)
      (hfree₂ : freePageTables current.startCode current.dataLimit s₁ = .ok s₂) :
      Step file w (w.become
        (s₂.setTask cur (some ⟨current.startCode, endData, executable, codeLimit, 0x4000000⟩)) w.own)
  | exit {cur : Nat} {current : Task} {s₁ s₂ : Mem} (hcur : 1 ≤ cur ∧ cur < 64)
      (hrun : w.Running cur current)
      (hfree₁ : freePageTables current.startCode current.codeLimit w.kernel.mem = .ok s₁)
      (hfree₂ : freePageTables current.startCode current.dataLimit s₁ = .ok s₂) :
      Step file w { w.become s₂ w.own with gone := Function.update w.gone cur true }
  | release {n p : Nat} {s : Mem} (hn : 1 ≤ n) (hgone : w.gone n = true) (hown : w.own p = 1)
      (hfree : freePage p (w.kernel.mem.setTask n none) = .ok s) :
      Step file w { w.become s (Function.update w.own p 0) with gone := Function.update w.gone n false }
  | page {cur : Nat} {current : Task} {op : Op} {σ : Sys} (hrun : w.Running cur current)
      (hwithin : op.Within cur current.dataLimit) (hallowed : op.Allowed w.sys)
      (hexec : op.exec file w.sys = .ok σ) : Step file w (w.become σ.mem σ.own)
  | killed {cur : Nat} {current : Task} {op : Op} {s : Mem} (hrun : w.Running cur current)
      (hwithin : op.Within cur current.dataLimit) (hallowed : op.Allowed w.sys)
      (hexec : op.exec file w.sys = .error (.oom s)) : Step file w (w.become s w.own)
  | files (files : Nat → Files) (fCount : Nat → UInt16) (iCount : Nat → Nat) :
      Step file w { w with kernel := ⟨{ w.kernel.mem with iCount }, files, fCount⟩ }

def World.boot (lo hi : Nat) (page : Nat → Nat → UInt8) (files : Nat → Files) (fCount : Nat → UInt16) : World :=
  ⟨⟨(Mm.boot lo hi page).mem, files, fCount⟩, (Mm.boot lo hi page).own, fun _ => false⟩

def World.Reachable (file : ExeFile) (lo hi : Nat) (page : Nat → Nat → UInt8) (files : Nat → Files)
    (fCount : Nat → UInt16) (w : World) : Prop :=
  Relation.ReflTransGen (World.Step file) (World.boot lo hi page files fCount) w

/-- Every page table of user space belongs to a running task and lies below its limit. -/
structure Slots (lo : Nat) (w : World) : Prop where
  sys : SysInv lo w.sys
  tasks : ∀ n t, w.kernel.mem.task n = some t → n < 64 ∧ Bounded n t
  blank : ∀ d, (w.kernel.mem.pgDir d).present = false → w.kernel.mem.pgDir d = Pte.zero
  owner : ∀ d, 16 ≤ d → (w.kernel.mem.pgDir d).present = true →
    ∃ t, w.Running (d / 16) t ∧ d % 16 * 0x400000 < t.dataLimit

namespace Slots

variable {w w' : World}

/-- The slot that `find_empty_process` has found has no page table. -/
theorem vacant (h : Slots lo w) {nr : Nat} (hnr : 1 ≤ nr) (hfree : w.kernel.mem.task nr = none) :
    Vacant w.kernel.mem nr := by
  intro d hd
  apply h.blank
  cases hpres : (w.kernel.mem.pgDir d).present with
  | false => rfl
  | true =>
    obtain ⟨t, hrun, -⟩ := h.owner d (by omega) hpres
    rw [hd, World.Running, hfree] at hrun
    cases hrun.1

/-- A step that gives a running task a page table at most. -/
theorem dirAt (h : Slots lo w) {own : Nat → Nat} (hsys : SysInv lo ⟨s', own⟩)
    (hdir : DirAt d w.kernel.mem s')
    (hd : 16 ≤ d → ∃ t, w.Running (d / 16) t ∧ d % 16 * 0x400000 < t.dataLimit) :
    Slots lo (w.become s' own) := by
  have htask := hdir.task
  have hrun : ∀ n t, w.Running n t → (w.become s' own).Running n t := by
    intro n t hrun
    refine ⟨?_, hrun.2⟩
    show s'.task n = some t
    rw [htask]
    exact hrun.1
  refine ⟨hsys, ?_, ?_, ?_⟩
  · show ∀ n t, s'.task n = some t → _
    rw [htask]
    exact h.tasks
  · intro d' habs
    change (s'.pgDir d').present = false at habs
    show s'.pgDir d' = Pte.zero
    rcases hdir.dir d' with heq | ⟨-, f, hf⟩
    · rw [heq] at habs ⊢
      exact h.blank d' habs
    · rw [hf] at habs
      cases habs
  · intro d' hd' hpres
    change (s'.pgDir d').present = true at hpres
    rcases hdir.dir d' with heq | ⟨rfl, -⟩
    · rw [heq] at hpres
      obtain ⟨t, ht, hlt⟩ := h.owner d' hd' hpres
      exact ⟨t, hrun _ t ht, hlt⟩
    · obtain ⟨t, ht, hlt⟩ := hd hd'
      exact ⟨t, hrun _ t ht, hlt⟩

/-- `free_page_tables` for the code and for the data segment of a task leaves it no page table. -/
theorem freed (h : Slots lo w) {cur : Nat} {current : Task} {s₁ s₂ : Mem} (hcur : 1 ≤ cur ∧ cur < 64)
    (hrun : w.Running cur current)
    (hfree₁ : freePageTables current.startCode current.codeLimit w.kernel.mem = .ok s₁)
    (hfree₂ : freePageTables current.startCode current.dataLimit s₁ = .ok s₂) :
    SysInv lo ⟨s₂, w.own⟩ ∧ s₂.task = w.kernel.mem.task ∧
      ∀ d, s₂.pgDir d = if d / 16 = cur then Pte.zero else w.kernel.mem.pgDir d := by
  obtain ⟨-, hb⟩ := h.tasks _ _ hrun.1
  have hcode := hb.code
  have hdata := hb.data
  rw [hb.start] at hfree₁ hfree₂
  obtain ⟨h₁, hframe₁, -, -, hempty₁⟩ :=
    (freePageTables_kept h.sys.inv hcur (Nat.le_trans hcode hdata)).of_ok _ hfree₁
  obtain ⟨h₂, hframe₂, -, -, hempty₂⟩ := (freePageTables_kept h₁ hcur hdata).of_ok _ hfree₂
  have hframe := hframe₁.trans hframe₂
  refine ⟨h.sys.step h₂ hframe, hframe.same.task, fun d => ?_⟩
  by_cases hd : d / 16 = cur
  · rw [if_pos hd]
    have hfirst : s₁.pgDir d = Pte.zero ∨ s₁.pgDir d = w.kernel.mem.pgDir d := by
      rw [hempty₁ d]
      split
      · exact Or.inl rfl
      · exact Or.inr rfl
    rw [hempty₂ d]
    split
    · rfl
    · next hout =>
      rcases hfirst with hzero | hsame
      · exact hzero
      · rw [hsame] at hout ⊢
        apply h.blank
        cases hpres : (w.kernel.mem.pgDir d).present with
        | false => rfl
        | true =>
          -- A present entry is below the limit, so the second call has been there.
          obtain ⟨t, ht, hlt⟩ := h.owner d (by omega) hpres
          rw [hd, World.Running, hrun.1] at ht
          obtain rfl := Option.some.inj ht.1
          exact absurd ⟨by omega, by omega, hpres⟩ hout
  · have hout : ∀ m ≤ 16, ¬ (16 * cur ≤ d ∧ d < 16 * cur + m) := by omega
    rw [if_neg hd, hempty₂ d, if_neg fun hin => hout _ (by omega) ⟨hin.1, hin.2.1⟩, hempty₁ d,
      if_neg fun hin => hout _ (by omega) ⟨hin.1, hin.2.1⟩]
    rfl

/-- A task without page tables may go away or get other limits. -/
theorem emptied (h : Slots lo w) {cur : Nat} {s : Mem} {own : Nat → Nat} {gone : Nat → Bool}
    (hsys : SysInv lo ⟨s, own⟩) (htasks : ∀ n t, s.task n = some t → n < 64 ∧ Bounded n t)
    (hdir : ∀ d, s.pgDir d = if d / 16 = cur then Pte.zero else w.kernel.mem.pgDir d)
    (htask : ∀ n, n ≠ cur → s.task n = w.kernel.mem.task n) (hgone : ∀ n, n ≠ cur → gone n = w.gone n) :
    Slots lo { w.become s own with gone } := by
  refine ⟨hsys, htasks, fun d habs => ?_, fun d hd hpres => ?_⟩
  · change (s.pgDir d).present = false at habs
    show s.pgDir d = Pte.zero
    rw [hdir] at habs ⊢
    split
    · rfl
    · next hne =>
      rw [if_neg hne] at habs
      exact h.blank d habs
  · change (s.pgDir d).present = true at hpres
    rw [hdir] at hpres
    split at hpres
    · cases hpres
    · next hne =>
      obtain ⟨t, ht, hlt⟩ := h.owner d hd hpres
      refine ⟨t, ⟨?_, ?_⟩, hlt⟩
      · show s.task (d / 16) = some t
        rw [htask _ hne]
        exact ht.1
      · show gone (d / 16) = false
        rw [hgone _ hne]
        exact ht.2

/-- A fork that runs out of memory changes no task and no page table. -/
theorem undone (h : Slots lo w) {cur nr : Nat} {k : Kernel} {gone : Nat → Bool}
    (hinv : Inv lo w.own k.mem) (hhigh : k.mem.highMemory = w.kernel.mem.highMemory)
    (hundone : Undone cur nr w.kernel k) (hgone : ∀ n t, w.Running n t → gone n = false) :
    Slots lo ⟨k, w.own, gone⟩ := by
  refine ⟨⟨hinv, ?_, ?_⟩, ?_, ?_, ?_⟩
  · intro n t ht
    change k.mem.task n = some t at ht
    rw [hundone.task] at ht
    exact h.sys.layout n t ht
  · intro f hf
    show lo ≤ f ∧ f < k.mem.highMemory
    rw [hhigh]
    exact h.sys.own_main f hf
  · show ∀ n t, k.mem.task n = some t → _
    rw [hundone.task]
    exact h.tasks
  · show ∀ d, (k.mem.pgDir d).present = false → k.mem.pgDir d = Pte.zero
    rw [hundone.pgDir]
    exact h.blank
  · intro d hd hpres
    change (k.mem.pgDir d).present = true at hpres
    rw [hundone.pgDir] at hpres
    obtain ⟨t, ht, hlt⟩ := h.owner d hd hpres
    refine ⟨t, ⟨?_, hgone _ t ht⟩, hlt⟩
    show k.mem.task (d / 16) = some t
    rw [hundone.task]
    exact ht.1

/-- The new page tables are those of the child. -/
theorem born (h : Slots lo w) {nr p : Nat} {current : Task} {k : Kernel} {gone : Nat → Bool}
    (hnr : nr < 64) (hfree : w.kernel.mem.task nr = none)
    (hbound : Bounded nr { current with startCode := nr * 0x4000000 })
    (hborn : Born lo w.own nr current p w.kernel k) (hgone : ∀ n t, w.Running n t → gone n = false)
    (hnew : gone nr = false) : Slots lo ⟨k, Function.update w.own p 1, gone⟩ := by
  have hchild : k.mem.task nr = some { current with startCode := nr * 0x4000000 } := by
    rw [hborn.task, Function.update_self]
  have hothers : ∀ n t, k.mem.task n = some t → n < 64 ∧ Bounded n t := by
    intro n t ht
    rcases eq_or_ne n nr with rfl | hn
    · rw [hchild] at ht
      cases ht
      exact ⟨hnr, hbound⟩
    · rw [hborn.task, Function.update_of_ne hn] at ht
      exact h.tasks n t ht
  refine ⟨⟨hborn.inv, fun n t ht => (hothers n t ht).2.start, ?_⟩, hothers, ?_, ?_⟩
  · intro f hf
    show lo ≤ f ∧ f < k.mem.highMemory
    rw [hborn.high]
    rcases eq_or_ne f p with rfl | hfp
    · exact hborn.main
    · change Function.update w.own p 1 f = 1 at hf
      rw [Function.update_of_ne hfp] at hf
      exact h.sys.own_main f hf
  · intro d habs
    change (k.mem.pgDir d).present = false at habs
    show k.mem.pgDir d = Pte.zero
    rcases hborn.dirs d with heq | ⟨-, -, -, f, hf⟩
    · rw [heq] at habs ⊢
      exact h.blank d habs
    · rw [hf] at habs
      cases habs
  · intro d hd hpres
    change (k.mem.pgDir d).present = true at hpres
    rcases hborn.dirs d with heq | ⟨h1, h2, -⟩
    · -- a table of somebody else
      rw [heq] at hpres
      obtain ⟨t, ht, hlt⟩ := h.owner d hd hpres
      refine ⟨t, ⟨?_, hgone _ t ht⟩, hlt⟩
      show k.mem.task (d / 16) = some t
      rw [hborn.task, Function.update_of_ne]
      · exact ht.1
      · intro hdn
        rw [hdn, World.Running, hfree] at ht
        cases ht.1
    · -- one of the child's, made after the parent's, which are below the common limit
      have hdata : current.dataLimit ≤ 0x4000000 := hbound.data
      have hslot : d / 16 = nr := by omega
      have hlt : d % 16 * 0x400000 < current.dataLimit := by omega
      rw [hslot]
      exact ⟨_, ⟨hchild, hnew⟩, hlt⟩

theorem forked (h : Slots lo w) {cur nr : Nat} {current : Task} {lastPid : Int} {r : Int × Kernel}
    (hcur : cur < 64) (hrun : w.Running cur current) (hnr : 1 ≤ nr ∧ nr < 64)
    (hfree : w.kernel.mem.task nr = none) (hpid : 0 < lastPid)
    (hfork : w.kernel.copyProcess nr cur current lastPid = .ok r) :
    Slots lo ⟨r.2,
      if r.1 < 0 then w.own else Function.update w.own ((getFreePage w.kernel.mem).1.getD 0) 1,
      Function.update w.gone nr false⟩ := by
  have hne : cur ≠ nr := by
    rintro rfl
    rw [World.Running, hfree] at hrun
    cases hrun.1
  have hb := (h.tasks _ _ hrun.1).2
  have hvacant := h.vacant hnr.1 hfree
  have hgone : ∀ n t, w.Running n t → Function.update w.gone nr false n = false := by
    intro n t ht
    rcases eq_or_ne n nr with rfl | hn
    · rw [Function.update_self]
    · rw [Function.update_of_ne hn]
      exact ht.2
  rcases (copyProcess_undo lastPid h.sys.inv hcur hnr hne hb h.tasks hfree hvacant).of_ok _ hfork with
    ⟨-, hres, hinv, hhigh, hundone⟩ | ⟨-, hres, p, hp, hborn⟩
  · rw [if_pos (by rw [hres]; decide)]
    exact h.undone hinv hhigh hundone hgone
  · rw [if_neg (by rw [hres]; omega), hp]
    have hbound : Bounded nr { current with startCode := nr * 0x4000000 } :=
      ⟨rfl, hb.code, hb.data, fun hz => by omega⟩
    exact h.born hnr.2 hfree hbound hborn hgone (Function.update_self ..)

end Slots

/-- Where a page operation of the task in slot `cur` can put a page table. -/
theorem Op.exec_dir {cur limit : Nat} {current : Task} {σ : Sys} {op : Op} (hcur : cur < 64)
    (hlay : Layout σ.mem) (ht : σ.mem.task cur = some current) (hwithin : op.Within cur limit)
    (hallowed : op.Allowed σ) :
    ∃ d, (d < 16 ∨ (d / 16 = cur ∧ d % 16 * 0x400000 < limit)) ∧
      Post (op.exec file σ) (fun σ' => DirAt d σ.mem σ'.mem) (Stop.Leaves (DirAt d σ.mem)) := by
  have hslot : ∀ a, a / 0x4000000 = cur → a % 0x4000000 < limit →
      dirIndex a / 16 = cur ∧ dirIndex a % 16 * 0x400000 < limit := by
    intro a h1 h2
    unfold dirIndex
    omega
  cases op with
  | doNoPage address n =>
    obtain ⟨rfl, hlimit⟩ := hwithin
    obtain ⟨-, ha, -⟩ := hallowed
    refine ⟨dirIndex address, Or.inr (hslot _ ha hlimit), ?_⟩
    simp only [Op.exec, ht]
    exact Post.bind (doNoPage_dir (hlay _ _ ht) ha) fun s' hs' => Post.ret hs'
  | putPage page address =>
    refine ⟨dirIndex address, Or.inr (hslot _ hwithin.1 hwithin.2), ?_⟩
    have hput := putPage_dir page address σ.mem
    simp only [Op.exec]
    cases hres : Mm.putPage page address σ.mem with
    | mk r s =>
      rw [hres] at hput
      cases r <;> exact Post.ret hput
  | getEmptyPage address =>
    refine ⟨dirIndex address, Or.inr (hslot _ hwithin.1 hwithin.2), ?_⟩
    exact Post.bind (getEmptyPage_dir address σ.mem) fun s' hs' => Post.ret hs'
  | doWpPage address =>
    refine ⟨0, Or.inl (by decide), ?_⟩
    exact Post.bind (unWpPage_dir 0 _ _ σ.mem) fun s' hs' => Post.ret hs'
  | writeVerify address =>
    refine ⟨0, Or.inl (by decide), ?_⟩
    exact Post.bind (writeVerify_dir 0 address σ.mem) fun s' hs' => Post.ret hs'
  | getFreePage =>
    refine ⟨0, Or.inl (by decide), ?_⟩
    have hget := getFreePage_dir 0 σ.mem
    simp only [Op.exec]
    cases hres : Mm.getFreePage σ.mem with
    | mk r s =>
      rw [hres] at hget
      cases r <;> exact Post.ret hget
  | freePage page =>
    refine ⟨0, Or.inl (by decide), ?_⟩
    exact Post.bind (freePage_leaves (DirAt.refl 0 σ.mem)) fun s' hs' => Post.ret hs'
  | store address v => exact ⟨0, Or.inl (by decide), Post.ret (DirAt.of_eq rfl rfl)⟩
  | copyPageTables m n size => exact hwithin.elim
  | copyKernel n size => exact hwithin.elim
  | freePageTables n size => exact hwithin.elim
  | tryToShare address m n => exact hwithin.elim
  | tasks task iCount => exact hwithin.elim

theorem Slots.paged {w : World} (h : Slots lo w) {cur : Nat} {current : Task} (hrun : w.Running cur current)
    (hd : d < 16 ∨ (d / 16 = cur ∧ d % 16 * 0x400000 < current.dataLimit)) {own : Nat → Nat}
    (hsys : SysInv lo ⟨s', own⟩) (hdir : DirAt d w.kernel.mem s') : Slots lo (w.become s' own) := by
  refine h.dirAt hsys hdir fun hd16 => ?_
  rcases hd with hlt | ⟨rfl, hlt⟩
  · omega
  · exact ⟨current, hrun, hlt⟩

/-- `execve` gives the task other limits. -/
theorem Slots.loaded {w : World} (h : Slots lo w) {cur : Nat} {t : Task} (hcur : cur < 64) {own : Nat → Nat}
    (hsys : SysInv lo ⟨s, own⟩) (hnew : Bounded cur t) (htask : s.task = w.kernel.mem.task)
    (hdir : ∀ d, s.pgDir d = if d / 16 = cur then Pte.zero else w.kernel.mem.pgDir d) :
    Slots lo (w.become (s.setTask cur (some t)) own) := by
  have htasks : ∀ n t', (s.setTask cur (some t)).task n = some t' → n < 64 ∧ Bounded n t' := by
    intro n t' ht
    change Function.update s.task cur _ n = some t' at ht
    rcases eq_or_ne n cur with rfl | hn
    · rw [Function.update_self] at ht
      cases ht
      exact ⟨hcur, hnew⟩
    · rw [Function.update_of_ne hn, htask] at ht
      exact h.tasks n t' ht
  have halike : Alike s (s.setTask cur (some t)) := ⟨rfl, rfl, rfl, rfl, rfl⟩
  refine h.emptied ⟨halike.inv hsys.inv, fun n t ht => (htasks n t ht).2.start, hsys.own_main⟩ htasks
    hdir ?_ fun _ _ => rfl
  intro n hn
  rw [← htask]
  exact Function.update_of_ne hn _ _

/-- `release` gives the page of the task structure back. The task has exited, so it has no page table left. -/
theorem Slots.released {w : World} (h : Slots lo w) {n p : Nat} {s : Mem} (hn : 1 ≤ n) (hgone : w.gone n = true)
    (hown : w.own p = 1) (hfree : Mm.freePage p (w.kernel.mem.setTask n none) = .ok s) :
    Slots lo { w.become s (Function.update w.own p 0) with gone := Function.update w.gone n false } := by
  have halike : Alike w.kernel.mem (w.kernel.mem.setTask n none) := ⟨rfl, rfl, rfl, rfl, rfl⟩
  obtain ⟨hinv, hframe, hdir, -, -⟩ :=
    (freePage_owned (halike.inv h.sys.inv) (h.sys.own_main p hown) hown).of_ok _ hfree
  have hnone : ∀ m t, s.task m = some t → m ≠ n ∧ w.kernel.mem.task m = some t := by
    intro m t ht
    rw [hframe.same.task] at ht
    change Function.update w.kernel.mem.task n none m = some t at ht
    rcases eq_or_ne m n with rfl | hmn
    · rw [Function.update_self] at ht
      cases ht
    · rw [Function.update_of_ne hmn] at ht
      exact ⟨hmn, ht⟩
  refine h.emptied ⟨hinv, fun m t ht => h.sys.layout m t (hnone m t ht).2, ?_⟩
    (fun m t ht => h.tasks m t (hnone m t ht).2) ?_ ?_ fun m hm => Function.update_of_ne hm _ _
  · intro f hf
    show lo ≤ f ∧ f < s.highMemory
    rw [hframe.same.high]
    change Function.update w.own p 0 f = 1 at hf
    rcases eq_or_ne f p with rfl | hfp
    · rw [Function.update_self] at hf
      cases hf
    · rw [Function.update_of_ne hfp] at hf
      exact h.sys.own_main f hf
  · intro d
    rw [hdir]
    show w.kernel.mem.pgDir d = _
    split
    · next hd =>
      apply h.blank
      cases hpres : (w.kernel.mem.pgDir d).present with
      | false => rfl
      | true =>
        obtain ⟨t, ht, -⟩ := h.owner d (by omega) hpres
        rw [hd, World.Running, hgone] at ht
        cases ht.2
    · rfl
  · intro m hm
    rw [hframe.same.task]
    exact Function.update_of_ne hm _ _

theorem World.Step.slots {w w' : World} (h : Slots lo w) (hstep : World.Step file w w') : Slots lo w' := by
  cases hstep with
  | fork hcur hrun hnr hfree hpid hfork => exact h.forked hcur hrun hnr hfree hpid hfork
  | execve hcur hrun hcode hfree₁ hfree₂ =>
    obtain ⟨hsys, htask, hdir⟩ := h.freed hcur hrun hfree₁ hfree₂
    have hstart := (h.tasks _ _ hrun.1).2.start
    exact h.loaded hcur.2 hsys ⟨hstart, hcode, Nat.le_refl _, fun hz => by omega⟩ htask hdir
  | exit hcur hrun hfree₁ hfree₂ =>
    obtain ⟨hsys, htask, hdir⟩ := h.freed hcur hrun hfree₁ hfree₂
    refine h.emptied hsys ?_ hdir (fun n _ => by rw [htask]) fun n hn => Function.update_of_ne hn _ _
    rw [htask]
    exact h.tasks
  | release hn hgone hown hfree => exact h.released hn hgone hown hfree
  | page hrun hwithin hallowed hexec =>
    obtain ⟨hcur, -⟩ := h.tasks _ _ hrun.1
    obtain ⟨d, hd, hpost⟩ := Op.exec_dir hcur h.sys.layout hrun.1 hwithin hallowed
    exact h.paged hrun hd ((Op.exec_spec h.sys hallowed).of_ok _ hexec) (hpost.of_ok _ hexec)
  | killed hrun hwithin hallowed hexec =>
    obtain ⟨hcur, -⟩ := h.tasks _ _ hrun.1
    obtain ⟨d, hd, hpost⟩ := Op.exec_dir hcur h.sys.layout hrun.1 hwithin hallowed
    rcases (Op.exec_spec h.sys hallowed).of_error _ hexec with ⟨s', heq, hsys⟩ | heq
    · cases heq
      exact h.paged hrun hd hsys (hpost.of_error _ hexec)
    · cases heq
  | files files fCount iCount =>
    obtain ⟨h1, h2, h3, h4, h5, h6⟩ := h.sys.inv.fixed
    exact ⟨⟨⟨h.sys.inv.good, h1, h2, h3, h4, h5, h6⟩, h.sys.layout, h.sys.own_main⟩, h.tasks, h.blank, h.owner⟩

theorem boot_slots {files : Nat → Files} {fCount : Nat → UInt16} (hlo : lowMem ≤ lo)
    (hhi : hi ≤ lowMem + pagingPages) : Slots lo (World.boot lo hi page files fCount) := by
  have hpage : ∀ d, (World.boot lo hi page files fCount).kernel.mem.pgDir d =
      if d < 4 then Pte.user (d + 1) else Pte.zero := fun _ => rfl
  refine ⟨boot_inv hlo hhi, fun n t ht => ?_, fun d habs => ?_, fun d hd hpres => ?_⟩
  · change (if n = 0 then some initTask else none) = some t at ht
    split at ht
    · next hn =>
      cases ht
      subst hn
      exact ⟨by decide, rfl, Nat.le_refl _, by decide, fun _ => Nat.le_refl _⟩
    · cases ht
  · rw [hpage] at habs ⊢
    split at habs
    · cases habs
    · next hd => rw [if_neg hd]
  · rw [hpage, if_neg (by omega)] at hpres
    cases hpres

end Linux011.Mm
