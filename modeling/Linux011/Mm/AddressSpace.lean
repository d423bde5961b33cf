import Linux011.Lib.Run
import Linux011.Mm.Counting
import Linux011.Mm.Fork

/-!
# Address spaces

To a program a task is a private array of bytes. `space` reads that array off the page tables: the
byte of the page an offset is mapped to, or what `do_no_page` would bring in for it. `Event.apply` is
the abstract machine, in which every task simply has an array of its own; a run of forks and user
stores is shown to do to the page tables what `apply` does to the arrays.
-/

namespace Linux011.Mm

open Linux011.Lib

variable {file : ExeFile} {lo : Nat} {own : Nat → Nat} {s s' : Mem} {a p m n o : Nat} {v : UInt8}
  {t current : Task}

/-- The byte that an absent page is going to have at offset `o`. -/
def demand (file : ExeFile) (t : Task) (o : Nat) : UInt8 :=
  match t.executable with
  | none => 0
  | some x => if t.endData ≤ o / 4096 * 4096 then 0
    else filePage file x t.endData (o / 4096 * 4096) (o % 4096)

/-- The address space of task `t` in slot `n`, as a function from offset to byte. -/
def space (file : ExeFile) (s : Mem) (n : Nat) (t : Task) (o : Nat) : UInt8 :=
  let e := walk s (n * 0x4000000 + o)
  if e.present then s.page e.frame (o % 4096) else demand file t o

theorem space_eq (hn : 1 ≤ n ∧ n < 64) (ho : o < 0x4000000) :
    space file s n t o = match seen s (taskPage n o) with
      | some (_, bytes) => bytes (o % 4096)
      | none => demand file t o := by
  have hp := taskPage_mem hn ho
  rw [← address_page] at hp
  unfold space seen
  rw [walk_eq hp, address_page]
  cases hpres : (entry s (taskPage n o)).present with
  | true => simp [Pte.target_of_present hpres, hpres]
  | false => simp [Pte.target_of_absent hpres, hpres]

theorem demand_congr {t' : Task} (hexe : t'.executable = t.executable)
    (hend : t'.endData = t.endData) : demand file t' o = demand file t o := by
  unfold demand
  rw [hexe, hend]

/-- Two tasks alike in their executable show the same byte where their pages show the same. -/
theorem space_congr {t' : Task} (hm : 1 ≤ m ∧ m < 64) (hn : 1 ≤ n ∧ n < 64) (ho : o < 0x4000000)
    (hexe : t'.executable = t.executable) (hend : t'.endData = t.endData)
    (hseen : seen s' (taskPage n o) = seen s (taskPage m o)) :
    space file s' n t' o = space file s m t o := by
  rw [space_eq hn ho, space_eq hm ho, hseen, demand_congr hexe hend]

/-! ## The abstract machine -/

inductive Event where
  | fork (cur nr : Nat)
  | store (n o : Nat) (v : UInt8)

/-- What an event does when every task has its own array: a fork copies one, a store changes one byte
of one. -/
def Event.apply (A : Nat → Nat → UInt8) : Event → Nat → Nat → UInt8
  | fork cur nr => Function.update A nr (A cur)
  | store n o v => Function.update A n (Function.update (A n) o v)

/-- What it does on the page tables. A task stores below its limit, into a page that is present or, if
absent, one that `do_no_page` does not read from the executable. -/
inductive Event.Step (file : ExeFile) (σ : Sys) : Event → Sys → Prop
  | fork {cur nr p : Nat} {current : Task} {s : Mem} (hcur : 1 ≤ cur ∧ cur < 64)
      (hnr : 1 ≤ nr ∧ nr < 64) (ht : σ.mem.task cur = some current) (hfree : σ.mem.task nr = none)
      (hfork : copyProcess nr current σ.mem = .ok (some p, s)) :
      Event.Step file σ (fork cur nr) ⟨s, Function.update σ.own p 1⟩
  | store {n o : Nat} {v : UInt8} {current : Task} {s : Mem} (hn : 1 ≤ n ∧ n < 64)
      (ht : σ.mem.task n = some current) (ho : o < current.dataLimit)
      (hpage : (walk σ.mem (n * 0x4000000 + o)).present = true ∨ current.executable = none ∨
        current.endData ≤ o / 4096 * 4096)
      (hstore : userStore file n current (n * 0x4000000 + o) v σ.mem = .ok s) :
      Event.Step file σ (store n o v) ⟨s, σ.own⟩

/-- `change_ldt` and `INIT_TASK`: no task reaches beyond its 64 MB. -/
def Limits (s : Mem) : Prop := ∀ n t, s.task n = some t → t.dataLimit ≤ 0x4000000

/-- The page tables show the arrays of `A` to every task, up to its limit. -/
def Shows (file : ExeFile) (s : Mem) (A : Nat → Nat → UInt8) : Prop :=
  ∀ n t, 1 ≤ n → n < 64 → s.task n = some t → ∀ o < t.dataLimit, space file s n t o = A n o

variable {σ σ' : Sys} {A : Nat → Nat → UInt8}

/-- Right after a fork the child's array is the parent's, and nobody else's has changed. -/
theorem shows_fork (hlim : Limits σ.mem) (hA : Shows file σ.mem A) {cur nr : Nat}
    (hcur : 1 ≤ cur ∧ cur < 64) (hnr : 1 ≤ nr ∧ nr < 64) (ht : σ.mem.task cur = some current)
    (hf : Forked lo σ.own σ.mem cur nr current p s) :
    Shows file s (Event.apply A (Event.fork cur nr)) := by
  intro n t h1 h2 htask o ho
  have hparent := hlim _ _ ht
  rw [hf.task] at htask
  show _ = Function.update A nr (A cur) n o
  rcases eq_or_ne n nr with rfl | hne
  · rw [Function.update_self] at htask ⊢
    cases htask
    have hlt : o < 0x4000000 := Nat.lt_of_lt_of_le ho hparent
    rw [← hA cur current hcur.1 hcur.2 ht o ho]
    exact space_congr hcur hnr hlt rfl rfl (hf.copied o ho).seen
  · rw [Function.update_of_ne hne] at htask ⊢
    have hlt : o < 0x4000000 := Nat.lt_of_lt_of_le ho (hlim _ _ htask)
    rw [← hA n t h1 h2 htask o ho]
    refine space_congr ⟨h1, h2⟩ ⟨h1, h2⟩ hlt rfl rfl ?_
    exact hf.seen _ (taskPage_mem ⟨h1, h2⟩ hlt) (by unfold taskPage; omega)

/-- A store changes one byte of the storing task's array. -/
theorem shows_store (h : SysInv lo σ) (hlim : Limits σ.mem) (hA : Shows file σ.mem A)
    (hn : 1 ≤ n ∧ n < 64) (ht : σ.mem.task n = some current) (ho : o < current.dataLimit)
    (hpage : (walk σ.mem (n * 0x4000000 + o)).present = true ∨ current.executable = none ∨
      current.endData ≤ o / 4096 * 4096)
    (hstore : userStore file n current (n * 0x4000000 + o) v σ.mem = .ok s) :
    Shows file s (Event.apply A (Event.store n o v)) := by
  have hlt : o < 0x4000000 := Nat.lt_of_lt_of_le ho (hlim _ _ ht)
  have hp := taskPage_mem hn hlt
  obtain ⟨-, hframe, bytes, hseen, hpresent, habsent⟩ :=
    (userStore_spec h.inv h.layout hn ht (by omega)).of_ok _ hstore
  rw [address_page] at hframe hseen hpresent habsent
  intro m t h1 h2 htask o' ho'
  rw [hframe.same.task] at htask
  have hlt' : o' < 0x4000000 := Nat.lt_of_lt_of_le ho' (hlim _ _ htask)
  have hp' := taskPage_mem ⟨h1, h2⟩ hlt'
  have hold := hA m t h1 h2 htask o' ho'
  show _ = Function.update A n (Function.update (A n) o v) m o'
  rcases eq_or_ne (taskPage m o') (taskPage n o) with heq | hne
  · -- the page stored to, at any of its bytes
    obtain rfl : m = n := by unfold taskPage at heq; omega
    rw [ht] at htask
    cases htask
    have hbytes : bytes (o' % 4096) = A m o' := by
      rw [← hold, space_eq hn hlt', heq]
      unfold seen
      cases hpres : (entry σ.mem (taskPage m o)).present with
      | true => simp [Pte.target_of_present hpres, hpresent hpres]
      | false =>
        have hbeyond : current.executable = none ∨ current.endData ≤ o / 4096 * 4096 := by
          rcases hpage with hwalk | hbeyond
          · rw [walk_eq (by rwa [address_page]), address_page, hpres] at hwalk
            cases hwalk
          · exact hbeyond
        have hoff : o' / 4096 = o / 4096 := by unfold taskPage at heq; omega
        have hzero := habsent hpres (by
          rw [show taskPage m o * 4096 - m * 0x4000000 = o / 4096 * 4096 by unfold taskPage; omega]
          exact hbeyond)
        rw [Pte.target_of_absent hpres, hzero]
        simp only [Option.map_none, demand]
        rcases hbeyond with hexe | hend
        · rw [hexe]
        · rw [hoff]
          split
          · rfl
          · rw [if_pos hend]
    rw [space_eq hn hlt', heq, hseen, Function.update_self]
    simp only
    rw [show (m * 0x4000000 + o) % 4096 = o % 4096 by omega]
    rcases eq_or_ne o' o with rfl | hoo
    · rw [Function.update_self, Function.update_self]
    · have hmod : o' % 4096 ≠ o % 4096 := by unfold taskPage at heq; omega
      rw [Function.update_of_ne hoo, Function.update_of_ne hmod, hbytes]
  · have hkeep : space file s m t o' = A m o' := by
      rw [← hold]
      exact space_congr ⟨h1, h2⟩ ⟨h1, h2⟩ hlt' rfl rfl (hframe.seen _ hp' hne)
    rw [hkeep]
    rcases eq_or_ne m n with rfl | hmn
    · have hoo : o' ≠ o := fun heq => hne (by rw [heq])
      rw [Function.update_self, Function.update_of_ne hoo]
    · rw [Function.update_of_ne hmn]

/-! ## Runs -/

theorem copyProcess_forked {cur nr : Nat} (h : SysInv lo σ) (hlim : Limits σ.mem)
    (hcur : 1 ≤ cur ∧ cur < 64) (hnr : 1 ≤ nr ∧ nr < 64) (ht : σ.mem.task cur = some current)
    (hfree : σ.mem.task nr = none) (hfork : copyProcess nr current σ.mem = .ok (some p, s)) :
    Forked lo σ.own σ.mem cur nr current p s := by
  have hne : cur ≠ nr := by
    rintro rfl
    rw [hfree] at ht
    cases ht
  have hspec := copyProcess_spec h.inv hnr hcur hne (h.layout _ _ ht) (hlim _ _ ht) hfree
  rcases hspec.of_ok _ hfork with ⟨p', hp, hf⟩ | ⟨hp, -⟩
  · cases hp
    exact hf
  · cases hp

/-- Every event keeps what the next one needs, and does to the arrays what `apply` says. -/
theorem Event.Step.spec {ev : Event} (h : SysInv lo σ) (hlim : Limits σ.mem)
    (hstep : Event.Step file σ ev σ') :
    SysInv lo σ' ∧ Limits σ'.mem ∧ ∀ A, Shows file σ.mem A → Shows file σ'.mem (Event.apply A ev) := by
  cases hstep with
  | @fork cur nr p current s hcur hnr ht hfree hfork =>
    have hf := copyProcess_forked h hlim hcur hnr ht hfree hfork
    refine ⟨hf.sysInv h, ?_, fun A hA => shows_fork hlim hA hcur hnr ht hf⟩
    intro n t htask
    have hparent := hlim _ _ ht
    change s.task n = some t at htask
    rw [hf.task] at htask
    rcases eq_or_ne n nr with rfl | hnn
    · rw [Function.update_self] at htask
      cases htask
      exact hparent
    · rw [Function.update_of_ne hnn] at htask
      exact hlim n t htask
  | store hn ht ho hpage hstore =>
    have hlt := hlim _ _ ht
    obtain ⟨h', hframe, -⟩ := (userStore_spec h.inv h.layout hn ht (by omega)).of_ok _ hstore
    refine ⟨h.step h' hframe, ?_, fun A hA => shows_store h hlim hA hn ht ho hpage hstore⟩
    intro m t htask
    rw [hframe.same.task] at htask
    exact hlim m t htask

/-- The arrays that the page tables show. -/
def spaces (file : ExeFile) (s : Mem) (n o : Nat) : UInt8 :=
  match s.task n with
  | some t => space file s n t o
  | none => 0

theorem shows_spaces (file : ExeFile) (s : Mem) : Shows file s (spaces file s) := by
  intro n t _ _ ht o _
  simp only [spaces, ht]

theorem run_shows (h : SysInv lo σ) (hlim : Limits σ.mem) {evs : List Event}
    (hrun : Run (Event.Step file) σ evs σ') (hA : Shows file σ.mem A) :
    (SysInv lo σ' ∧ Limits σ'.mem) ∧ Shows file σ'.mem (evs.foldl Event.apply A) := by
  refine Run.refine (R := fun σ A => (SysInv lo σ ∧ Limits σ.mem) ∧ Shows file σ.mem A) ?_
    ⟨⟨h, hlim⟩, hA⟩ hrun
  rintro σ₁ ev σ₂ A ⟨⟨h₁, hlim₁⟩, hA₁⟩ hstep
  obtain ⟨h₂, hlim₂, hshows⟩ := Event.Step.spec h₁ hlim₁ hstep
  exact ⟨⟨h₂, hlim₂⟩, hshows A hA₁⟩

/-- After any run of forks and stores the tasks see what private arrays would hold. In particular a
child starts with its parent's bytes, and a store reaches the storing task only. -/
theorem spaces_private (hlo : lowMem ≤ lo) {hi : Nat} (hhi : hi ≤ lowMem + pagingPages)
    {page : Nat → Nat → UInt8} (hreach : Reachable file lo hi page σ) (hlim : Limits σ.mem)
    {evs : List Event} (hrun : Run (Event.Step file) σ evs σ') :
    (∀ A, Shows file σ.mem A → Shows file σ'.mem (evs.foldl Event.apply A)) ∧
    (∀ cur nr σ'', Event.Step file σ' (Event.fork cur nr) σ'' → ∃ parent child,
      σ'.mem.task cur = some parent ∧ σ''.mem.task nr = some child ∧
        child.dataLimit = parent.dataLimit ∧ ∀ o < parent.dataLimit,
          space file σ''.mem nr child o = space file σ'.mem cur parent o) ∧
    ∀ n o v σ'', Event.Step file σ' (Event.store n o v) σ'' → ∀ m t, 1 ≤ m → m < 64 →
      σ''.mem.task m = some t → σ'.mem.task m = some t ∧ ∀ o' < t.dataLimit,
        space file σ''.mem m t o' = if m = n ∧ o' = o then v else space file σ'.mem m t o' := by
  have hstart := Reachable.inv hlo hhi hreach
  obtain ⟨⟨h, hlim'⟩, -⟩ := run_shows hstart hlim hrun (shows_spaces file σ.mem)
  refine ⟨fun A hA => (run_shows hstart hlim hrun hA).2, ?_, ?_⟩
  · intro cur nr σ'' hstep
    have hshows := (Event.Step.spec h hlim' hstep).2.2 _ (shows_spaces file σ'.mem)
    cases hstep with
    | @fork _ _ p parent s hcur hnr ht hfree hfork =>
      have hf := copyProcess_forked h hlim' hcur hnr ht hfree hfork
      have hchild : s.task nr = some { parent with startCode := nr * 0x4000000 } := by
        rw [hf.task, Function.update_self]
      refine ⟨parent, _, ht, hchild, rfl, fun o ho => ?_⟩
      have hbyte := hshows nr _ hnr.1 hnr.2 hchild o ho
      simp only [Event.apply, Function.update_self, spaces, ht] at hbyte
      exact hbyte
  · intro n o v σ'' hstep m t h1 h2 htask
    have hshows := (Event.Step.spec h hlim' hstep).2.2 _ (shows_spaces file σ'.mem)
    cases hstep with
    | @store _ _ _ current s hn ht ho hpage hstore =>
      have hlt := hlim' _ _ ht
      obtain ⟨-, hframe, -⟩ := (userStore_spec h.inv h.layout hn ht (by omega)).of_ok _ hstore
      have hold : σ'.mem.task m = some t := by rw [← hframe.same.task]; exact htask
      refine ⟨hold, fun o' ho' => ?_⟩
      rw [hshows m t h1 h2 htask o' ho']
      simp only [Event.apply]
      rcases eq_or_ne m n with rfl | hmn
      · rw [Function.update_self]
        rcases eq_or_ne o' o with rfl | hoo
        · simp
        · simp [hoo, spaces, hold]
      · simp [hmn, spaces, hold]

/-! ### A page that two tasks share -/

/-- A task as `execve` leaves it, with nothing to load. -/
def bareTask : Task := ⟨0x4000000, 0, none, 0x4000000, 0x4000000⟩

namespace SharedPage

def noFile : ExeFile := fun _ _ => none

def tasks (n : Nat) : Option Task := if n = 1 then some bareTask else none

def started : Mem := { (boot 1024 4096 fun _ _ => 0).mem with task := tasks, iCount := fun _ => 0 }

def stores (s : Mem) (v : UInt8) : Mem := (userStore noFile 1 bareTask (1 * 0x4000000 + 0) v s).toOption.getD s

/-- Task 1 stores a byte and forks; the page is then mapped read-only for both tasks. -/
def stored : Mem := stores started 5
def childTask : Task := { bareTask with startCode := 2 * 0x4000000 }
def child : Mem := (getFreePage stored).2.setTask 2 (some childTask)
def table : Mem := (getFreePage child).2.setDir 32 (Pte.user 4092)
def forked : Mem := copyEntry 4094 4092 table 0

theorem forks : copyProcess 2 bareTask stored = .ok (some 4093, forked) := by
  have habs : ∀ i, 1 ≤ i → (table.pageTable 4094 i).present = false := by
    intro i hi
    obtain ⟨j, rfl⟩ := Nat.exists_eq_add_of_le' hi
    rfl
  have hrest : ∀ d < 15, (forked.pgDir (17 + d)).present = false ∧ (forked.pgDir (33 + d)).present = false := by
    decide +kernel
  exact copyProcess_copied (by decide +kernel) (copyMem_single rfl (by decide) rfl (by decide)
    (copyDirs_single (by decide +kernel) rfl (by decide +kernel) (by decide +kernel) (by decide +kernel) (by decide)
      habs hrest))

theorem stores_ok {s : Mem} {v : UInt8} (h : (userStore noFile 1 bareTask (1 * 0x4000000 + 0) v s).toOption.isSome = true) :
    userStore noFile 1 bareTask (1 * 0x4000000 + 0) v s = .ok (stores s v) := by
  unfold stores
  cases hs : userStore noFile 1 bareTask (1 * 0x4000000 + 0) v s with
  | ok s' => rfl
  | error e =>
    rw [hs] at h
    cases h

end SharedPage

open SharedPage in
/-- Task 1 stores a byte, forks, and stores another byte there: its child still sees the first one. -/
theorem spaces_private_fork : ∃ σ σ' σ'', Run (Event.Step noFile) σ ([] ++ [Event.store 1 0 5] ++ [Event.fork 1 2]) σ' ∧
    Event.Step noFile σ' (Event.store 1 0 7) σ'' ∧ space noFile σ''.mem 1 bareTask 0 = 7 ∧
      space noFile σ''.mem 2 childTask 0 = 5 := by
  have htask : ∀ n t, tasks n = some t → n = 1 ∧ t = bareTask := by
    intro n t ht
    rcases eq_or_ne n 1 with rfl | hn
    · exact ⟨rfl, (Option.some.inj ht).symm⟩
    · simp [tasks, hn] at ht
  have hreach : Reachable noFile 1024 4096 (fun _ _ => 0) ⟨started, (boot 1024 4096 fun _ _ => 0).own⟩ := by
    refine Relation.ReflTransGen.single (Step.done (Op.tasks tasks fun _ => 0) ?_ rfl)
    rintro n t ht
    obtain ⟨rfl, rfl⟩ := htask n t ht
    rfl
  have hlim : Limits started := by
    intro n t ht
    obtain ⟨-, rfl⟩ := htask n t ht
    exact le_rfl
  have hstore : Event.Step noFile ⟨started, (boot 1024 4096 fun _ _ => 0).own⟩ (Event.store 1 0 5)
      ⟨stored, (boot 1024 4096 fun _ _ => 0).own⟩ :=
    Event.Step.store (by decide) rfl (by decide) (Or.inr (Or.inl rfl)) (stores_ok (by decide +kernel))
  have hfork : Event.Step noFile ⟨stored, (boot 1024 4096 fun _ _ => 0).own⟩ (Event.fork 1 2)
      ⟨forked, Function.update (boot 1024 4096 fun _ _ => 0).own 4093 1⟩ :=
    Event.Step.fork (by decide) (by decide) rfl rfl forks
  have hagain : Event.Step noFile ⟨forked, Function.update (boot 1024 4096 fun _ _ => 0).own 4093 1⟩
      (Event.store 1 0 7) ⟨stores forked 7, Function.update (boot 1024 4096 fun _ _ => 0).own 4093 1⟩ :=
    Event.Step.store (by decide) rfl (by decide) (Or.inr (Or.inl rfl)) (stores_ok (by decide +kernel))
  have hrun := (Run.nil.snoc hstore).snoc hfork
  obtain ⟨hshows, -, hstores⟩ := spaces_private (by decide) (by decide) hreach hlim hrun
  have hone := (hstores _ _ _ _ hagain 1 bareTask (by decide) (by decide) rfl).2 0 (by decide)
  have htwo := (hstores _ _ _ _ hagain 2 childTask (by decide) (by decide) rfl).2 0 (by decide)
  have hfive := hshows _ (shows_spaces noFile started) 2 childTask (by decide) (by decide) rfl 0 (by decide)
  exact ⟨_, _, _, hrun, hagain, hone, htwo.trans (hfive.trans rfl)⟩

end Linux011.Mm
