import Linux011.Fs.Descriptors

/-!
# Runs of calls on descriptors

Any tasks, in any order, switching where a call sleeps. `descriptors_counted` is about runs in which
no task dies inside `open_namei` on an entry of the file table that still has the inode of its last
user; `open_fault_drops_twice` is a run in which one does.
-/

namespace Linux011.Fs

open Lib (refs)

/-- The calls, and the places where they go on after sleeping; `get` and `put` are the rest of the
kernel, which takes and drops references to inodes. -/
inductive FileEvent (I : Type _) where
  | open (t : Nat) (flag : BitVec 32)
  | opened (t : Nat) (r : Except Int I)
  | finishOpen (t : Nat)
  | close (t fd : Nat)
  | dropped (t : Nat)
  | dup (t fd : Nat)
  | dup2 (t oldfd newfd : Nat)
  | fcntl (t fd cmd : Nat) (arg : BitVec 32)
  | pipe (t : Nat)
  | pipeGot (t : Nat) (i : Option I)
  | fork (t nr : Nat) (lastPid : Int) (memory : Bool)
  | exit (t : Nat)
  | exitStep (t : Nat)
  | release (nr : Nat)
  | get (i : I)
  | put (i : I)

namespace FileSys

variable {I : Type _} [DecidableEq I] {s s' : FileSys I} {t fd f : Nat} {F F' : Files I} {i : I}

/-- A pipe inode is one that nobody had a reference to, and `iget` does not find it again. -/
inductive Step : FileSys I → FileEvent I → Except String (FileSys I) → Prop
  | open {s : FileSys I} {t : Nat} {F : Files I} {flag : BitVec 32} (hF : s.task t = some F)
      (hp : F.phase = .user) : Step s (.open t flag) ((s.sysOpen t F flag).map (·.2))
  | opened {s : FileSys I} {t fd f : Nat} {F : Files I} {flag : BitVec 32} {r : Except Int I}
      (hF : s.task t = some F) (hp : F.phase = .opening fd f flag)
      (hr : ∀ i, r = .ok i → s.iPipe i = false) :
      Step s (.opened t r) ((s.opened t F fd f flag r).map (·.2))
  | finishOpen {s : FileSys I} {t fd f : Nat} {F : Files I} {flag : BitVec 32} {i : I}
      (hF : s.task t = some F) (hp : F.phase = .holding fd f flag i) :
      Step s (.finishOpen t) ((s.finishOpen t F fd f flag i).map (·.2))
  | close {s : FileSys I} {t fd : Nat} {F : Files I} (hF : s.task t = some F)
      (hp : F.phase = .user) : Step s (.close t fd) ((s.sysClose t F fd .ret).map (·.2))
  | dropped {s : FileSys I} {t : Nat} {F : Files I} {i : Option I} {k : Cont}
      (hF : s.task t = some F) (hp : F.phase = .dropping i k) :
      Step s (.dropped t) ((s.dropped t F i k).map (·.2))
  | dup {s : FileSys I} {t fd : Nat} {F : Files I} (hF : s.task t = some F) (hp : F.phase = .user) :
      Step s (.dup t fd) (.ok (s.dupfd t F fd 0).2)
  | dup2 {s : FileSys I} {t oldfd newfd : Nat} {F : Files I} (hF : s.task t = some F)
      (hp : F.phase = .user) :
      Step s (.dup2 t oldfd newfd) ((s.sysClose t F newfd (.dup oldfd newfd)).map (·.2))
  | fcntl {s : FileSys I} {t fd cmd : Nat} {arg : BitVec 32} {F : Files I} (hF : s.task t = some F)
      (hp : F.phase = .user) : Step s (.fcntl t fd cmd arg) (.ok (s.sysFcntl t F fd cmd arg).2)
  | pipe {s : FileSys I} {t : Nat} {F : Files I} (hF : s.task t = some F) (hp : F.phase = .user) :
      Step s (.pipe t) (.ok (s.sysPipe t F).2)
  | pipeGot {s : FileSys I} {t fd0 fd1 f0 f1 : Nat} {F : Files I} {o : Option I}
      (hF : s.task t = some F) (hp : F.phase = .piping fd0 fd1 f0 f1)
      (ho : ∀ i, o = some i → s.iCount i = 0) :
      Step s (.pipeGot t o) (.ok (s.pipeGot t F fd0 fd1 f0 f1 o).2)
  | fork {s : FileSys I} {t nr : Nat} {lastPid : Int} {memory : Bool} {F : Files I}
      (hF : s.task t = some F) (hp : F.phase = .user) (hnr : nr < nrTasks)
      (hfree : s.task nr = none) :
      Step s (.fork t nr lastPid memory) (.ok (s.copyProcess nr lastPid F memory).2)
  | exit {s : FileSys I} {t : Nat} {F : Files I} (hF : s.task t = some F)
      (hp : F.phase = .user ∨ ∃ fd f flag, F.phase = .opening fd f flag) :
      Step s (.exit t) (.ok (s.setTask t { F with phase := .exiting 0 }))
  | exitStep {s : FileSys I} {t fd : Nat} {F : Files I} (hF : s.task t = some F)
      (hp : F.phase = .exiting fd) : Step s (.exitStep t) ((s.exitStep t F fd).map (·.2))
  | release {s : FileSys I} {nr : Nat} {F : Files I} (hF : s.task nr = some F)
      (hp : F.phase = .zombie) :
      Step s (.release nr) (.ok { s with task := Function.update s.task nr none })
  | get {s : FileSys I} {i : I} (hpipe : s.iPipe i = false) :
      Step s (.get i) (.ok { s with
        iCount := Function.update s.iCount i (s.iCount i + 1)
        others := Function.update s.others i (s.others i + 1) })
  | put {s : FileSys I} {i : I} (hpos : 0 < s.others i) :
      Step s (.put i) ((s.iput (some i)).map fun s =>
        { s with others := Function.update s.others i (s.others i - 1) })

/-- No task dies inside `open_namei` on an entry that has the inode of its last user. -/
def Spares (s : FileSys I) : FileEvent I → Prop
  | .exit t => ∀ F fd f flag, s.task t = some F → F.phase = .opening fd f flag →
      (s.file f).fInode = none
  | _ => True

/-- The start: nothing is open. -/
structure Boot (s : FileSys I) : Prop where
  task : ∀ t F, s.task t = some F → t < nrTasks ∧ (∀ fd, F.filp fd = none) ∧ F.closeOnExec = 0 ∧
    F.phase = .user
  file : ∀ f, (s.file f).fCount = 0 ∧ (s.file f).fInode = none
  iCount : ∀ i, s.iCount i = s.others i
  iPipe : ∀ i, s.iPipe i = false

theorem Boot.inv (h : s.Boot) : s.Inv := by
  have hslot : ∀ x, s.slot x = none := by
    intro x
    cases hF : s.task x.1 with
    | none => simp [slot, hF]
    | some F => simp [slot, hF, (h.task x.1 F hF).2.1 x.2]
  have hflight : ∀ t, s.flight t = none := by
    intro t
    cases hF : s.task t with
    | none => simp [flight, hF]
    | some F => simp [flight, hF, (h.task t F hF).2.2.2, Phase.flight]
  refine ⟨fun f => ?_, fun t F hF => ?_, fun i => ?_, fun i hi => ?_⟩
  · rw [Lib.refs_eq_zero_iff.mpr fun x _ => by simp [hslot x]]
    exact (h.file f).1
  · obtain ⟨hlt, hfilp, hexec, hphase⟩ := h.task t F hF
    refine ⟨hlt, fun fd f hfd => ?_, fun fd hfd => ?_, ?_⟩
    · rw [hfilp] at hfd
      cases hfd
    · rw [hexec] at hfd
      simp at hfd
    · rw [hphase]
      trivial
  · rw [Lib.refs_eq_zero_iff.mpr fun f _ => by simp [held_none (.inl (h.file f).1)],
      Lib.refs_eq_zero_iff.mpr fun t _ => by simp [hflight t], h.iCount i]
    omega
  · rw [h.iPipe i] at hi
    cases hi

/-- A step. -/
theorem Inv.step (h : s.Inv) {e : FileEvent I} {r : Except String (FileSys I)} (hstep : Step s e r)
    (hspares : s.Spares e) : Lib.Post r Inv fun _ => False := by
  cases hstep with
  | «open» hF hp => exact (keeps_sysOpen h hF hp).step
  | opened hF hp hr => exact (keeps_opened h hF hp hr).step
  | finishOpen hF hp => exact (keeps_finishOpen h hF hp).step
  | @close t fd F hF hp =>
    have hidle : F.phase.Idle := by
      rw [hp]
      trivial
    exact (keeps_sysClose h hF hidle (k := .ret) trivial).step
  | dropped hF hp => exact (keeps_dropped h hF hp).step
  | dup hF hp => exact .ret (inv_dupfd h hF hp)
  | @dup2 t oldfd newfd F hF hp =>
    have hidle : F.phase.Idle := by
      rw [hp]
      trivial
    exact (keeps_sysClose h hF hidle (k := .dup oldfd newfd) trivial).step
  | fcntl hF hp => exact .ret (inv_sysFcntl h hF hp)
  | pipe hF hp => exact .ret (inv_sysPipe h hF hp)
  | pipeGot hF hp ho => exact .ret (inv_pipeGot h hF hp ho)
  | @fork t nr lastPid memory F hF hp hnr hfree =>
    have hidle : F.phase.Idle := by
      rw [hp]
      trivial
    exact .ret (inv_copyProcess h hF hidle hnr hfree)
  | @exit t F hF hp =>
    refine .ret (inv_exit h hF ?_)
    rcases hp with hp | ⟨fd, f, flag, hp⟩
    · exact .inl hp
    · exact .inr ⟨fd, f, flag, hp, hspares F fd f flag hF hp⟩
  | exitStep hF hp => exact (keeps_exitStep h hF hp).step
  | release hF hp => exact .ret (inv_release h hF hp)
  | get hpipe => exact .ret (inv_get h hpipe)
  | put hpos => exact keeps_put h hpos

/-- A run. -/
theorem Boot.run (h : s.Boot) {es : List (FileEvent I)}
    (hrun : Lib.Run (fun s e s' => Step s e (.ok s') ∧ s.Spares e) s es s') : s'.Inv :=
  Lib.Run.inv (fun _ _ s'' hinv hstep => (hinv.step hstep.1 hstep.2).of_ok s'' rfl) h.inv hrun

/-! ### The page of a pipe -/

/-- A page that is freed is the page of an inode that nobody has a reference to. -/
def PagesKept (s s' : FileSys I) : Prop :=
  ∀ i, s.iPipe i = true → s'.iPipe i = false → s'.iCount i = 0

omit [DecidableEq I] in
theorem PagesKept.of_eq (h : s'.iPipe = s.iPipe) : s.PagesKept s' := by
  intro i hi hi'
  rw [h, hi] at hi'
  cases hi'

theorem iput_pages {o : Option I} (h : s.iput o = .ok s') : s.PagesKept s' := by
  cases o with
  | none =>
    cases h
    exact .of_eq rfl
  | some j =>
    unfold FileSys.iput at h
    by_cases hzero : s.iCount j = 0
    · simp [hzero] at h
    · simp only [hzero, if_false] at h
      cases h
      intro i hi hi'
      by_cases hone : s.iCount j = 1
      · by_cases hij : i = j
        · subst hij
          simp [hone]
        · simp [hone, hij, hi] at hi'
      · simp [hone, hi] at hi'

omit [DecidableEq I] in
theorem shareFiles_iPipe {n : Nat} : (shareFiles F n s).iPipe = s.iPipe := by
  induction n with
  | zero => rfl
  | succ n ih =>
    rw [shareFiles_succ]
    cases F.filp n with
    | none => exact ih
    | some f => exact ih

omit [DecidableEq I] in
theorem dupfd_iPipe {arg : Nat} : (s.dupfd t F fd arg).2.iPipe = s.iPipe := by
  unfold dupfd
  split
  · rfl
  · split
    · rfl
    · split <;> rfl

omit [DecidableEq I] in
theorem resume_pages {r : Int} {k : Cont} :
    (s.resume t F r k).2.iPipe = s.iPipe ∧ (s.resume t F r k).2.iCount = s.iCount := by
  cases k with
  | ret => exact ⟨rfl, rfl⟩
  | dup fd arg =>
    refine ⟨dupfd_iPipe, ?_⟩
    show (s.dupfd t F fd arg).2.iCount = s.iCount
    unfold dupfd
    split
    · rfl
    · split
      · rfl
      · split <;> rfl
  | exit fd => exact ⟨rfl, rfl⟩

omit [DecidableEq I] in
theorem sysClose_pages {k : Cont} :
    Lib.Post (s.sysClose t F fd k) (fun p => p.2.iPipe = s.iPipe) fun _ => True := by
  unfold sysClose
  split
  · exact .ret resume_pages.1
  · dsimp only
    split
    · exact .ret resume_pages.1
    · split
      · exact .stop trivial
      · split
        · exact .ret resume_pages.1
        · exact .ret rfl

theorem Step.pages {e : FileEvent I} (h : Step s e (.ok s')) : s.PagesKept s' := by
  generalize hr : Except.ok s' = r at h
  cases h with
  | @«open» t F flag hF hp =>
    obtain ⟨p, hp, rfl⟩ := Lib.map_eq_ok.mp hr.symm
    refine .of_eq ?_
    unfold sysOpen at hp
    split at hp
    · cases hp
      rfl
    · dsimp only at hp
      split at hp <;> cases hp <;> rfl
  | @opened t fd f F flag o hF hp ho =>
    obtain ⟨p, hp, rfl⟩ := Lib.map_eq_ok.mp hr.symm
    refine .of_eq ?_
    cases o <;> cases hp <;> rfl
  | @finishOpen t fd f F flag i hF hp =>
    obtain ⟨p, hp, rfl⟩ := Lib.map_eq_ok.mp hr.symm
    unfold FileSys.finishOpen at hp
    -- a pipe ends with the last reference, in `iput`
    split at hp
    · obtain ⟨s₁, hput, rfl⟩ := Lib.map_eq_ok.mp hp
      intro j hj hj'
      exact iput_pages hput j hj hj'
    · cases hp
      exact .of_eq rfl
  | close hF hp =>
    obtain ⟨p, hp, rfl⟩ := Lib.map_eq_ok.mp hr.symm
    exact .of_eq (sysClose_pages.of_ok p hp)
  | dropped hF hp =>
    obtain ⟨p, hp, rfl⟩ := Lib.map_eq_ok.mp hr.symm
    obtain ⟨s₁, hput, rfl⟩ := Lib.map_eq_ok.mp hp
    intro i hi hi'
    rw [resume_pages.1] at hi'
    rw [resume_pages.2]
    exact iput_pages hput i hi hi'
  | dup hF hp =>
    cases hr
    exact .of_eq dupfd_iPipe
  | dup2 hF hp =>
    obtain ⟨p, hp, rfl⟩ := Lib.map_eq_ok.mp hr.symm
    exact .of_eq (sysClose_pages.of_ok p hp)
  | fcntl hF hp =>
    cases hr
    refine .of_eq ?_
    unfold sysFcntl
    split
    · rfl
    · split
      · exact dupfd_iPipe
      all_goals rfl
  | pipe hF hp =>
    cases hr
    refine .of_eq ?_
    unfold sysPipe
    split <;> rfl
  | @pipeGot t fd0 fd1 f0 f1 F o hF hp ho =>
    cases hr
    cases o with
    | none => exact .of_eq rfl
    | some j =>
      intro i hi hi'
      by_cases hij : i = j
      · simp [FileSys.pipeGot, FileSys.setTask, setFile, hij] at hi'
      · simp [FileSys.pipeGot, FileSys.setTask, setFile, hij, hi] at hi'
  | @fork t nr lastPid memory F hF hp hnr hfree =>
    cases hr
    refine .of_eq ?_
    cases memory with
    | false => rfl
    | true => exact shareFiles_iPipe
  | exit hF hp =>
    cases hr
    exact .of_eq rfl
  | exitStep hF hp =>
    obtain ⟨p, hp, rfl⟩ := Lib.map_eq_ok.mp hr.symm
    refine .of_eq ?_
    unfold FileSys.exitStep at hp
    split at hp
    · cases hp
      rfl
    · split at hp
      · cases hp
        rfl
      · exact sysClose_pages.of_ok p hp
  | release hF hp =>
    cases hr
    exact .of_eq rfl
  | get hpipe =>
    cases hr
    exact .of_eq rfl
  | put hpos =>
    obtain ⟨s₁, hput, rfl⟩ := Lib.map_eq_ok.mp hr.symm
    intro j hj hj'
    exact iput_pages hput j hj hj'

/-! ### What holds in every run -/

/-- In every state of a run in which no task dies on an entry with an old inode: `f_count` counts the
descriptors; the references to an inode are those of the files open on it, of the calls in progress
and of the rest of the kernel; the page of a pipe is there as long as somebody has a reference to the
pipe; and `close_on_exec` is about open descriptors, none of which is just being made. The next step
does not panic. -/
theorem descriptors_counted (hboot : s.Boot) {es : List (FileEvent I)}
    (hrun : Lib.Run (fun s e s' => Step s e (.ok s') ∧ s.Spares e) s es s') :
    (∀ f, (s'.file f).fCount = refs slots s'.slot f) ∧
    (∀ f, (s'.file f).fCount = 0 → ∀ t F fd, s'.task t = some F → F.filp fd ≠ some f) ∧
    (∀ i, s'.iCount i = refs (Finset.range nrFile) s'.held i +
      refs (Finset.range nrTasks) s'.flight i + s'.others i) ∧
    (∀ i, s'.iPipe i = true → s'.others i = 0 ∧ 0 < s'.iCount i) ∧
    (∀ t F fd, s'.task t = some F → F.closeOnExec.getLsbD fd = true →
      F.filp fd ≠ none ∧ ¬ F.phase.Makes fd) ∧
    ∀ e r, Step s' e r → s'.Spares e →
      ∃ s'', r = .ok s'' ∧ ∀ i, s'.iPipe i = true → (s''.iPipe i = false ↔ s''.iCount i = 0) := by
  have hinv := hboot.run hrun
  refine ⟨hinv.counts, fun f hzero t F fd hF hfd => ?_, hinv.inodes, hinv.pipes,
    fun t F fd hF hbit => (hinv.tasks t F hF).2.cloexec fd hbit, fun e r hstep hspares => ?_⟩
  · have hpos := hinv.count_pos hF hfd
    unfold count at hpos
    omega
  · have hkeep := hinv.step hstep hspares
    cases r with
    | error msg => exact (hkeep.of_error msg rfl).elim
    | ok s'' =>
      refine ⟨s'', rfl, fun i hi => ⟨hstep.pages i hi, fun hzero => ?_⟩⟩
      cases hpipe : s''.iPipe i with
      | false => rfl
      | true =>
        have hpos := ((hkeep.of_ok s'' rfl).pipes i hpipe).2
        omega

/-- A kernel with one inode and one task, which has the given descriptors. -/
def oneTask : FileSys Unit where
  task t := if t = 1 then some ⟨fun _ => none, 0, false, -1, .user⟩ else none
  file _ := ⟨0, 0, 0, none, 0⟩
  iCount _ := 0
  iPipe _ := false
  iMode _ := 0o100644
  iZone0 _ := 0
  others _ := 0

theorem oneTask_boot : oneTask.Boot := by
  refine ⟨fun t F hF => ?_, fun _ => ⟨rfl, rfl⟩, fun _ => rfl, fun _ => rfl⟩
  by_cases ht : t = 1
  · have hF' : some _ = some F := (if_pos ht).symm.trans hF
    obtain rfl := Option.some.inj hF'
    subst ht
    exact ⟨by decide, fun _ => rfl, rfl, rfl⟩
  · have hF' : none = some F := (if_neg ht).symm.trans hF
    cases hF'

theorem Step.cast {e : FileEvent I} {r r' : Except String (FileSys I)} (h : Step s e r) (hr : r = r') :
    Step s e r' :=
  hr ▸ h

/-- Task 1 opens a file, duplicates the descriptor, forks and closes one of them: three are left. -/
theorem descriptors_counted_shared : ∃ s : FileSys Unit, (s.file 0).fCount = refs slots s.slot 0 ∧
    (s.file 0).fCount = 3 ∧ s.iCount () = 1 := by
  obtain ⟨s₁, h₁, s₂, h₂, s₃, h₃, s₄, h₄, s₅, h₅, s₆, h₆, hcount⟩ :
      ∃ s₁, Step oneTask (.open 1 0) (.ok s₁) ∧ ∃ s₂, Step s₁ (.opened 1 (.ok ())) (.ok s₂) ∧
      ∃ s₃, Step s₂ (.finishOpen 1) (.ok s₃) ∧ ∃ s₄, Step s₃ (.dup 1 0) (.ok s₄) ∧
      ∃ s₅, Step s₄ (.fork 1 2 7 true) (.ok s₅) ∧ ∃ s₆, Step s₅ (.close 1 0) (.ok s₆) ∧
      (s₆.file 0).fCount = 3 ∧ s₆.iCount () = 1 := by
    refine ⟨_, .cast (.open rfl rfl) rfl, _, .cast (.opened rfl rfl fun _ _ => rfl) rfl,
      _, .cast (.finishOpen rfl rfl) rfl, _, .cast (.dup rfl rfl) rfl,
      _, .cast (.fork rfl rfl (by decide) rfl) rfl, _, .cast (.close rfl rfl) rfl, ?_⟩
    exact ⟨rfl, rfl⟩
  have hrun : Lib.Run (fun s e s' => Step s e (.ok s') ∧ s.Spares e) oneTask _ s₆ :=
    .snoc (.snoc (.snoc (.snoc (.snoc (.snoc .nil ⟨h₁, trivial⟩) ⟨h₂, trivial⟩) ⟨h₃, trivial⟩) ⟨h₄, trivial⟩)
      ⟨h₅, trivial⟩) ⟨h₆, trivial⟩
  exact ⟨s₆, (descriptors_counted oneTask_boot hrun).1 0, hcount⟩

/-- Task 1 opens a file, closes it, and then dies on the name of its second `open`: the reference of
the first file is dropped again. -/
theorem open_fault_drops_twice : ∃ es s, oneTask.Boot ∧
    Lib.Run (fun s e s' => Step s e (.ok s')) oneTask es s ∧
    Step s (.dropped 1) (.error "iput: trying to free free inode") := by
  obtain ⟨s₁, h₁, s₂, h₂, s₃, h₃, s₄, h₄, s₅, h₅, s₆, h₆, s₇, h₇, s₈, h₈, h⟩ :
      ∃ s₁, Step oneTask (.open 1 0) (.ok s₁) ∧ ∃ s₂, Step s₁ (.opened 1 (.ok ())) (.ok s₂) ∧
      ∃ s₃, Step s₂ (.finishOpen 1) (.ok s₃) ∧ ∃ s₄, Step s₃ (.close 1 0) (.ok s₄) ∧
      ∃ s₅, Step s₄ (.dropped 1) (.ok s₅) ∧ ∃ s₆, Step s₅ (.open 1 0) (.ok s₆) ∧
      ∃ s₇, Step s₆ (.exit 1) (.ok s₇) ∧ ∃ s₈, Step s₇ (.exitStep 1) (.ok s₈) ∧
      Step s₈ (.dropped 1) (.error "iput: trying to free free inode") := by
    refine ⟨_, .cast (.open rfl rfl) rfl, _, .cast (.opened rfl rfl fun _ _ => rfl) rfl,
      _, .cast (.finishOpen rfl rfl) rfl, _, .cast (.close rfl rfl) rfl,
      _, .cast (.dropped rfl rfl) rfl, _, .cast (.open rfl rfl) rfl,
      _, .cast (.exit rfl (.inr ⟨_, _, _, rfl⟩)) rfl, _, .cast (.exitStep rfl rfl) rfl, ?_⟩
    exact .cast (.dropped rfl rfl) rfl
  exact ⟨_, s₈, oneTask_boot, .snoc (.snoc (.snoc (.snoc (.snoc (.snoc (.snoc (.snoc .nil h₁) h₂)
    h₃) h₄) h₅) h₆) h₇) h₈, h⟩

end FileSys

end Linux011.Fs
