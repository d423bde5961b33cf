import Linux011.Fs.Descriptors

/-!
# `sys_dup2`

`sys_dup2` of `fs/fcntl.c` closes the new descriptor first, whatever the old one is, and duplicates then.
Here nobody else runs while `iput` sleeps.
-/

namespace Linux011.Fs

/-- The descriptor `fd` is open, on the entry `f` of the file table. -/
def Files.Refers {I : Type _} (F : Files I) (fd f : Nat) : Prop := fd < nrOpen ∧ F.filp fd = some f

/-- After `sys_close` the other descriptors are open. -/
theorem Files.refers_closed {I : Type _} {F : Files I} {fd n f : Nat} :
    ((F.clearExec n).setFilp n none).Refers fd f ↔ fd ≠ n ∧ F.Refers fd f := by
  show fd < nrOpen ∧ Function.update F.filp n none fd = some f ↔ _
  by_cases hfd : fd = n
  · rw [hfd, Function.update_self]
    exact ⟨fun h => absurd h.2 (by simp), fun h => absurd rfl h.1⟩
  · rw [Function.update_of_ne hfd]
    exact ⟨fun h => ⟨hfd, h⟩, fun h => h.2⟩

namespace FileSys

variable {I : Type _}

/-! ## `dupfd` -/

section

variable {s : FileSys I} {t oldfd : Nat} {F : Files I}

/-- The first descriptor from `arg` on that is not used is `arg`, if it is not used. -/
theorem free_eq {arg : Nat} (harg : arg < nrOpen) (hnone : F.filp arg = none) :
    ∃ l, F.free arg = arg :: l := by
  have hhead : (F.free arg).head? = some arg := by
    unfold Files.free
    rw [List.head?_filter, List.find?_range_eq_some]
    refine ⟨by simp [hnone], List.mem_range.mpr harg, fun j hj => ?_⟩
    simp [Nat.not_le.mpr hj]
  cases hfree : F.free arg with
  | nil =>
    rw [hfree] at hhead
    cases hhead
  | cons fd l =>
    rw [hfree] at hhead
    cases hhead
    exact ⟨l, rfl⟩

theorem dupfd_closed (h : ∀ f, ¬ F.Refers oldfd f) (arg : Nat) :
    s.dupfd t F oldfd arg = (-eBadf, s.setTask t { F with phase := .user }) := by
  unfold dupfd
  have hnone : (if oldfd < nrOpen then F.filp oldfd else none) = none := by
    split
    · next hlt =>
      cases hf : F.filp oldfd with
      | none => rfl
      | some f => exact absurd ⟨hlt, hf⟩ (h f)
    · rfl
  rw [hnone]

theorem dupfd_range {f : Nat} (h : F.Refers oldfd f) {arg : Nat} (harg : nrOpen ≤ arg) :
    s.dupfd t F oldfd arg = (-eInval, s.setTask t { F with phase := .user }) := by
  unfold dupfd
  rw [if_pos h.1, h.2]
  exact if_pos harg

theorem dupfd_free {f : Nat} (h : F.Refers oldfd f) {arg : Nat} (harg : arg < nrOpen)
    (hnone : F.filp arg = none) :
    s.dupfd t F oldfd arg = ((arg : Int), (s.useFile f).setTask t
      { (F.clearExec arg).setFilp arg (some f) with phase := .user }) := by
  obtain ⟨l, hfree⟩ := free_eq harg hnone
  unfold dupfd
  rw [if_pos h.1, h.2]
  simp only
  rw [if_neg (Nat.not_le.mpr harg), hfree]

end

/-! ## `sys_dup2` -/

variable [DecidableEq I]

/-- The rest of a call that has got to the `iput` of `sys_close`. -/
def finish (t : Nat) : Option Int × FileSys I → Result I
  | (some ret, s) => .ok (some ret, s)
  | (none, s) =>
    match s.task t with
    | none => .ok (none, s)
    | some F =>
      match F.phase with
      | .dropping i k => s.dropped t F i k
      | _ => .ok (none, s)

/-- `sys_dup2` -/
def sysDup2 (s : FileSys I) (t : Nat) (F : Files I) (oldfd newfd : Nat) : Result I :=
  match s.sysClose t F newfd (.dup oldfd newfd) with
  | .ok r => finish t r
  | .error text => .error text

/-- What the descriptors refer to is in use. -/
structure Usable (s : FileSys I) (F : Files I) : Prop where
  count : ∀ fd f, F.filp fd = some f → s.count f ≠ 0
  inode : ∀ fd f i, F.filp fd = some f → (s.file f).fInode = some i → s.iCount i ≠ 0

/-- The task `t`, whose files were `F`, has them still, and the counts are the same. -/
structure Unchanged (s : FileSys I) (t : Nat) (F : Files I) (s' : FileSys I) : Prop where
  files : ∃ F', s'.task t = some F' ∧ F'.filp = F.filp ∧ F'.closeOnExec = F.closeOnExec
  count : s'.count = s.count
  iCount : s'.iCount = s.iCount

/-- What `dup2` promises. Where a file was open at both descriptors, it gains what it loses. -/
structure Duplicates (s : FileSys I) (t : Nat) (F : Files I) (oldfd newfd : Nat) (ret : Int)
    (s' : FileSys I) : Prop where
  failed : ret < 0 → s.Unchanged t F s'
  returns : ∀ f, F.Refers oldfd f → newfd < nrOpen → ret = newfd
  refers : ∀ f, F.Refers oldfd f → newfd < nrOpen → ∃ F', s'.task t = some F' ∧ F'.filp newfd = some f
  same : ∀ f, F.Refers oldfd f → newfd = oldfd → s.Unchanged t F s'
  loses : ∀ f g, F.Refers oldfd f → newfd ≠ oldfd → F.Refers newfd g →
    s'.count g + 1 = s.count g + if g = f then 1 else 0

variable {s s' : FileSys I} {t oldfd newfd : Nat} {F : Files I}

/-- A task that is in no call can use its descriptors. -/
theorem Inv.usable (h : s.Inv) (hF : s.task t = some F) (hp : F.phase = .user) : s.Usable F := by
  refine ⟨fun fd f hf => (h.count_pos hF hf).ne', fun fd f i hf hi => ?_⟩
  have hres : ¬ s.Reserved f := by
    intro hr
    have huse := (h.reserved hF hf hr).1
    rw [hp] at huse
    exact huse
  have hheld : s.held f = some i := by rw [held_some (h.count_pos hF hf) hres, hi]
  have hlt := ((h.tasks t F hF).2.bound fd f hf).2
  have hpos : 0 < Lib.refs (Finset.range nrFile) s.held i :=
    Lib.refs_pos_iff.mpr ⟨f, Finset.mem_range.mpr hlt, hheld⟩
  rw [h.inodes]
  omega

theorem sysDup2_range (hnew : nrOpen ≤ newfd) :
    s.sysDup2 t F oldfd newfd =
      .ok (some (s.dupfd t F oldfd newfd).1, (s.dupfd t F oldfd newfd).2) := by
  unfold sysDup2 sysClose
  rw [if_pos hnew]
  rfl

theorem sysDup2_closed (hnew : newfd < nrOpen) (hnone : F.filp newfd = none) :
    s.sysDup2 t F oldfd newfd = .ok (some (s.dupfd t (F.clearExec newfd) oldfd newfd).1,
      (s.dupfd t (F.clearExec newfd) oldfd newfd).2) := by
  have hclear : (F.clearExec newfd).filp newfd = none := hnone
  unfold sysDup2 sysClose
  rw [if_neg (Nat.not_le.mpr hnew)]
  simp only [hclear]
  rfl

/-- A descriptor that is open is closed, and its file loses a reference, before `dupfd` is called. -/
theorem sysDup2_open {g : Nat} (h : s.Usable F) (hnew : F.Refers newfd g) :
    ∃ s₁ : FileSys I, (∀ x, s₁.count x + (if x = g then 1 else 0) = s.count x) ∧
      s.sysDup2 t F oldfd newfd =
        .ok (some (s₁.dupfd t ((F.clearExec newfd).setFilp newfd none) oldfd newfd).1,
          (s₁.dupfd t ((F.clearExec newfd).setFilp newfd none) oldfd newfd).2) := by
  have hclear : (F.clearExec newfd).filp newfd = some g := hnew.2
  have hzero : (s.file g).fCount ≠ 0 := h.count newfd g hnew.2
  have hdown : ∀ x, (s.setCount g ((s.file g).fCount - 1)).count x + (if x = g then 1 else 0) = s.count x := by
    intro x
    rw [count_setCount]
    by_cases hx : x = g
    · rw [if_pos hx, if_pos hx, hx]
      exact Nat.succ_pred_eq_of_ne_zero hzero
    · rw [if_neg hx, if_neg hx, Nat.add_zero]
  unfold sysDup2 sysClose
  rw [if_neg (Nat.not_le.mpr hnew.1)]
  simp only [hclear]
  rw [if_neg hzero]
  by_cases hlast : (s.file g).fCount - 1 = 0
  · -- the last reference goes, and the inode with it
    rw [if_neg (not_not.mpr hlast)]
    rw [hlast] at hdown
    let F₁ : Files I := { (F.clearExec newfd).setFilp newfd none with
      phase := .dropping (s.file g).fInode (.dup oldfd newfd) }
    have htask : ((s.setCount g 0).setTask t F₁).task t = some F₁ := Function.update_self ..
    have hrest : finish t (none, (s.setCount g 0).setTask t F₁) =
        ((s.setCount g 0).setTask t F₁).dropped t F₁ (s.file g).fInode (.dup oldfd newfd) := by
      unfold finish
      simp only [htask]
      rfl
    show ∃ s₁ : FileSys I, _ ∧ finish t (none, (s.setCount g 0).setTask t F₁) = _
    rw [hrest]
    unfold dropped
    cases hi : (s.file g).fInode with
    | none =>
      refine ⟨(s.setCount g 0).setTask t F₁, hdown, ?_⟩
      rw [iput]
      rfl
    | some i =>
      have hcount : ((s.setCount g 0).setTask t F₁).iCount i ≠ 0 := h.inode newfd g i hnew.2 hi
      refine ⟨{ (s.setCount g 0).setTask t F₁ with
        iCount := Function.update ((s.setCount g 0).setTask t F₁).iCount i
          (((s.setCount g 0).setTask t F₁).iCount i - 1)
        iPipe := if ((s.setCount g 0).setTask t F₁).iCount i = 1 then
          Function.update ((s.setCount g 0).setTask t F₁).iPipe i false
          else ((s.setCount g 0).setTask t F₁).iPipe }, hdown, ?_⟩
      rw [iput, if_neg hcount]
      rfl
  · rw [if_pos hlast]
    exact ⟨s.setCount g ((s.file g).fCount - 1), hdown, rfl⟩

omit [DecidableEq I] in
/-- A `dupfd` that fails has done nothing. -/
theorem unchanged_setTask {F' : Files I} (hfilp : F'.filp = F.filp)
    (hexec : F'.closeOnExec = F.closeOnExec) :
    s.Unchanged t F (s.setTask t { F' with phase := .user }) :=
  ⟨⟨_, Function.update_self .., hfilp, hexec⟩, rfl, rfl⟩

omit [DecidableEq I] in
/-- The bits of `close_on_exec` below `nrOpen` are those of descriptors. -/
theorem clearExec_eq (hnew : newfd < nrOpen) :
    (F.clearExec newfd).closeOnExec = F.closeOnExec ↔ F.closeOnExec.getLsbD newfd = false := by
  have hlt : newfd < 32 := Nat.lt_trans hnew (by decide)
  have hbit : ∀ i, (F.clearExec newfd).closeOnExec.getLsbD i =
      (F.closeOnExec.getLsbD i && !decide (i = newfd)) := by
    intro i
    unfold Files.clearExec
    simp only [BitVec.getLsbD_and, BitVec.getLsbD_not, BitVec.getLsbD_shiftLeft, BitVec.getLsbD_one]
    by_cases hi : i < 32
    · grind
    · rw [BitVec.getLsbD_of_ge _ _ (Nat.le_of_not_lt hi)]
      simp
  constructor
  · intro heq
    have hself := hbit newfd
    rw [heq] at hself
    simpa using hself
  · intro hclear
    apply BitVec.eq_of_getLsbD_eq
    intro i _
    rw [hbit]
    by_cases hi : i = newfd
    · rw [hi, hclear, Bool.false_and]
    · rw [decide_eq_false hi, Bool.not_false, Bool.and_true]

theorem eBadf_neg : -eBadf < 0 := by decide

/-- The new descriptor is out of range: nothing is closed. -/
theorem duplicates_range (hnew : nrOpen ≤ newfd) :
    ∃ ret s', s.sysDup2 t F oldfd newfd = .ok (some ret, s') ∧ s.Duplicates t F oldfd newfd ret s' := by
  have hfail : ∃ e : Int, s.dupfd t F oldfd newfd = (e, s.setTask t { F with phase := .user }) := by
    by_cases hold : ∃ f, F.Refers oldfd f
    · obtain ⟨f, hf⟩ := hold
      exact ⟨_, dupfd_range hf hnew⟩
    · exact ⟨_, dupfd_closed (fun f hf => hold ⟨f, hf⟩) newfd⟩
  obtain ⟨e, he⟩ := hfail
  refine ⟨e, _, by rw [sysDup2_range hnew, he], ?_⟩
  have hout : ¬ newfd < nrOpen := Nat.not_lt.mpr hnew
  exact ⟨fun _ => unchanged_setTask rfl rfl, fun _ _ hlt => absurd hlt hout,
    fun _ _ hlt => absurd hlt hout, fun _ _ _ => unchanged_setTask rfl rfl,
    fun _ _ _ _ hg => absurd hg.1 hout⟩

/-- The old descriptor is open, and another one. -/
theorem duplicates_open {f : Nat} (h : s.Usable F) (hf : F.Refers oldfd f) (hnew : newfd < nrOpen)
    (hne : newfd ≠ oldfd) :
    ∃ ret s', s.sysDup2 t F oldfd newfd = .ok (some ret, s') ∧ s.Duplicates t F oldfd newfd ret s' := by
  have hpos : ¬ ((newfd : Int) < 0) := by omega
  have hup : ∀ s₁ : FileSys I, ∀ F₁ : Files I, F₁.filp newfd = none → F₁.filp oldfd = some f →
      s₁.dupfd t F₁ oldfd newfd = ((newfd : Int), (s₁.useFile f).setTask t
        { (F₁.clearExec newfd).setFilp newfd (some f) with phase := .user }) :=
    fun s₁ F₁ hnone hsome => dupfd_free ⟨hf.1, hsome⟩ hnew hnone
  cases hg : F.filp newfd with
  | none =>
    refine ⟨newfd, _, by rw [sysDup2_closed hnew hg, hup s (F.clearExec newfd) hg hf.2], ?_⟩
    refine ⟨fun hneg => absurd hneg hpos, fun _ _ _ => rfl, fun f' hf' _ => ?_,
      fun _ _ heq => absurd heq hne, fun f' g _ _ hg' => ?_⟩
    · cases hf.2.symm.trans hf'.2
      exact ⟨_, Function.update_self .., Function.update_self ..⟩
    · rw [hg'.2] at hg
      cases hg
  | some g =>
    -- the file of the new descriptor loses it first
    obtain ⟨s₁, hcount, hopen⟩ := @sysDup2_open _ _ s t oldfd newfd F g h ⟨hnew, hg⟩
    have hsome : ((F.clearExec newfd).setFilp newfd none).filp oldfd = some f :=
      (Function.update_of_ne (Ne.symm hne) ..).trans hf.2
    refine ⟨newfd, _, by rw [hopen, hup s₁ _ (Function.update_self ..) hsome], ?_⟩
    refine ⟨fun hneg => absurd hneg hpos, fun _ _ _ => rfl, fun f' hf' _ => ?_,
      fun _ _ heq => absurd heq hne, fun f' g' hf' _ hg' => ?_⟩
    · cases hf.2.symm.trans hf'.2
      exact ⟨_, Function.update_self .., Function.update_self ..⟩
    · cases hg.symm.trans hg'.2
      cases hf.2.symm.trans hf'.2
      have hg₁ := hcount g
      rw [if_pos rfl] at hg₁
      rw [count_setTask, count_useFile]
      omega

/-- Neither is open: the call fails, and the bit of the new descriptor is clear before and after. -/
theorem duplicates_neither (hnew : newfd < nrOpen) (hold : ∀ f, ¬ F.Refers oldfd f)
    (hnobody : ∀ g, ¬ F.Refers newfd g) (hexec : F.closeOnExec.getLsbD newfd = false) :
    ∃ ret s', s.sysDup2 t F oldfd newfd = .ok (some ret, s') ∧ s.Duplicates t F oldfd newfd ret s' := by
  have hnone : F.filp newfd = none := by
    cases hg : F.filp newfd with
    | none => rfl
    | some g => exact absurd ⟨hnew, hg⟩ (hnobody g)
  have hclosed : ∀ f, ¬ (F.clearExec newfd).Refers oldfd f := hold
  refine ⟨-eBadf, _, by rw [sysDup2_closed hnew hnone, dupfd_closed hclosed], ?_⟩
  exact ⟨fun _ => unchanged_setTask rfl ((clearExec_eq hnew).mpr hexec),
    fun f hf => absurd hf (hold f), fun f hf => absurd hf (hold f),
    fun f hf => absurd hf (hold f), fun f g hf => absurd hf (hold f)⟩

/-- A descriptor that is duplicated to itself is closed, so that there is nothing to duplicate. -/
theorem not_duplicates_self {f : Nat} {ret : Int} {s' : FileSys I} (h : s.Usable F) (hf : F.Refers oldfd f)
    (hrun : s.sysDup2 t F oldfd oldfd = .ok (some ret, s')) : ¬ s.Duplicates t F oldfd oldfd ret s' := by
  intro hdup
  obtain ⟨s₁, -, hopen⟩ := @sysDup2_open _ _ s t oldfd oldfd F f h hf
  rw [hopen, dupfd_closed fun x hx => (Files.refers_closed.mp hx).1 rfl] at hrun
  cases hrun
  exact absurd (hdup.returns f hf hf.1) (by have := eBadf_neg; omega)

/-- With the old descriptor closed the call fails, and has closed the new one first. -/
theorem Duplicates.neither {ret : Int} {s' : FileSys I} (h : s.Usable F) (hnew : newfd < nrOpen)
    (hold : ∀ f, ¬ F.Refers oldfd f) (hrun : s.sysDup2 t F oldfd newfd = .ok (some ret, s'))
    (hdup : s.Duplicates t F oldfd newfd ret s') :
    (∀ g, ¬ F.Refers newfd g) ∧ F.closeOnExec.getLsbD newfd = false := by
  cases hg : F.filp newfd with
  | none =>
    refine ⟨fun g hg' => (by rw [hg'.2] at hg; cases hg), ?_⟩
    have hclosed : ∀ f, ¬ (F.clearExec newfd).Refers oldfd f := hold
    rw [sysDup2_closed hnew hg, dupfd_closed hclosed] at hrun
    cases hrun
    obtain ⟨F', hF', -, hexec⟩ := (hdup.failed eBadf_neg).files
    cases (Function.update_self t _ s.task).symm.trans hF'
    exact (clearExec_eq hnew).mp hexec
  | some g =>
    obtain ⟨s₁, -, hopen⟩ := @sysDup2_open _ _ s t oldfd newfd F g h ⟨hnew, hg⟩
    have hclosed : ∀ f, ¬ ((F.clearExec newfd).setFilp newfd none).Refers oldfd f :=
      fun f hf => hold f (Files.refers_closed.mp hf).2
    rw [hopen, dupfd_closed hclosed] at hrun
    cases hrun
    obtain ⟨F', hF', hfilp, -⟩ := (hdup.failed eBadf_neg).files
    cases (Function.update_self t _ s₁.task).symm.trans hF'
    have hlost : Function.update F.filp newfd none newfd = F.filp newfd := congrFun hfilp newfd
    rw [Function.update_self, hg] at hlost
    cases hlost

/-- `sys_dup2` returns, and does what it promises, if and only if the new descriptor is out of range, or
the old one is open and another one, or neither is open and the new one has no `close_on_exec` bit. -/
theorem sysDup2_duplicates (h : s.Usable F) :
    (∃ ret s', s.sysDup2 t F oldfd newfd = .ok (some ret, s') ∧ s.Duplicates t F oldfd newfd ret s') ↔
      nrOpen ≤ newfd ∨ ((∃ f, F.Refers oldfd f) ∧ newfd ≠ oldfd) ∨
        ((∀ f, ¬ F.Refers oldfd f) ∧ (∀ g, ¬ F.Refers newfd g) ∧
          F.closeOnExec.getLsbD newfd = false) := by
  rcases Nat.lt_or_ge newfd nrOpen with hnew | hnew
  · constructor
    · rintro ⟨ret, s', hrun, hdup⟩
      refine .inr ?_
      by_cases hold : ∃ f, F.Refers oldfd f
      · obtain ⟨f, hf⟩ := hold
        refine .inl ⟨⟨f, hf⟩, fun heq => ?_⟩
        subst heq
        exact not_duplicates_self h hf hrun hdup
      · have hold : ∀ f, ¬ F.Refers oldfd f := fun f hf => hold ⟨f, hf⟩
        exact .inr ⟨hold, hdup.neither h hnew hold hrun⟩
    · rintro (hrange | ⟨⟨f, hf⟩, hne⟩ | ⟨hold, hnobody, hexec⟩)
      · exact absurd hnew (Nat.not_lt.mpr hrange)
      · exact duplicates_open h hf hnew hne
      · exact duplicates_neither hnew hold hnobody hexec
  · exact ⟨fun _ => .inl hnew, fun _ => duplicates_range hnew⟩

/-- One task with one file at descriptor 3. -/
def oneFile : Files Nat := ⟨Function.update (fun _ => none) 3 (some 0), 0, false, -1, .user⟩

def oneOpen : FileSys Nat where
  task := Function.update (fun _ => none) 1 (some oneFile)
  file := Function.update (fun _ => ⟨0, 0, 0, none, 0⟩) 0 ⟨0o100644, 0, 1, some 0, 0⟩
  iCount := Function.update (fun _ => 0) 0 1
  iPipe := fun _ => false
  iMode := fun _ => 0o100644
  iZone0 := fun _ => 0
  others := fun _ => 0

theorem oneOpen_usable : oneOpen.Usable oneFile := by
  have hfd : ∀ fd f, oneFile.filp fd = some f → f = 0 := by
    intro fd f hf
    by_cases h3 : fd = 3
    · subst h3
      cases hf
      rfl
    · have hnone : oneFile.filp fd = none := by
        show Function.update (fun _ => (none : Option Nat)) 3 (some 0) fd = none
        rw [Function.update_of_ne h3]
      rw [hnone] at hf
      cases hf
  refine ⟨fun fd f hf => ?_, fun fd f i hf hi => ?_⟩
  · rw [hfd fd f hf]
    decide
  · rw [hfd fd f hf] at hi
    cases hi
    decide

/-- Duplicating a closed descriptor onto an open one fails, and closes that; and so does duplicating a
descriptor onto itself. -/
theorem sysDup2_closes :
    (∃ s', oneOpen.sysDup2 1 oneFile 5 3 = .ok (some (-eBadf), s') ∧ s'.count 0 = 0 ∧
      ¬ oneOpen.Duplicates 1 oneFile 5 3 (-eBadf) s') ∧
    (∃ s', oneOpen.sysDup2 1 oneFile 3 3 = .ok (some (-eBadf), s') ∧ s'.count 0 = 0 ∧
      ¬ oneOpen.Duplicates 1 oneFile 3 3 (-eBadf) s') := by
  have hlost : ∀ oldfd s', s'.count 0 = 0 → ¬ oneOpen.Duplicates 1 oneFile oldfd 3 (-eBadf) s' := by
    intro oldfd s' hzero hdup
    have hsame := congrFun (hdup.failed eBadf_neg).count 0
    rw [hzero] at hsame
    exact absurd hsame (by decide)
  exact ⟨⟨_, rfl, rfl, hlost 5 _ rfl⟩, ⟨_, rfl, rfl, hlost 3 _ rfl⟩⟩

theorem sysDup2_duplicates_one :
    ∃ ret s', oneOpen.sysDup2 1 oneFile 3 7 = .ok (some ret, s') ∧
      oneOpen.Duplicates 1 oneFile 3 7 ret s' :=
  (sysDup2_duplicates oneOpen_usable).mpr (.inr (.inl ⟨⟨0, by decide, rfl⟩, by decide⟩))

end FileSys

end Linux011.Fs
