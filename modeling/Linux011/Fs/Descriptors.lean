import Mathlib.Data.Finset.Prod
import Linux011.Fs.FileTable
import Linux011.Lib.Outcome
import Linux011.Lib.RefCount

/-!
# Counts of descriptors and of inodes

`Inv` says that `f_count` counts the descriptors, that each open file holds one reference to its
inode, and that `close_on_exec` is about open descriptors only. The calls of `Linux011.Fs.FileTable`
keep it, whichever task makes them.
-/

namespace Linux011.Fs

open Lib (refs)

/-- What `do_exit` has passed is closed. -/
def Cont.Ok (filp : Nat → Option Nat) : Cont → Prop
  | .exit n => ∀ fd < n, filp fd = none
  | _ => True

namespace Phase

variable {I : Type _}

/-- The entry `f` of the file table is reserved: it has no inode of its own yet. -/
def Uses (f : Nat) : Phase I → Prop
  | .opening _ f' _ => f' = f
  | .holding _ f' _ _ => f' = f
  | .piping _ _ f0 f1 => f0 = f ∨ f1 = f
  | _ => False

/-- The descriptor `fd` is being made. -/
def Makes (fd : Nat) : Phase I → Prop
  | .opening fd' _ _ => fd' = fd
  | .holding fd' _ _ _ => fd' = fd
  | .piping fd0 fd1 _ _ => fd0 = fd ∨ fd1 = fd
  | _ => False

/-- The reference to an inode that the call itself has. -/
def flight : Phase I → Option I
  | .holding _ _ _ i => some i
  | .dropping i _ => i
  | _ => none

/-- What the phase says about the descriptors and about the counts of the entries. -/
def Ok (count : Nat → Nat) (filp : Nat → Option Nat) : Phase I → Prop
  | .user => True
  | .opening fd f _ => filp fd = some f ∧ count f = 1
  | .holding fd f _ _ => filp fd = some f ∧ count f = 1
  | .dropping _ k => k.Ok filp
  | .piping fd0 fd1 f0 f1 => filp fd0 = some f0 ∧ filp fd1 = some f1 ∧ fd0 ≠ fd1 ∧ f0 ≠ f1 ∧
      count f0 = 1 ∧ count f1 = 1
  | .exiting n => ∀ fd < n, filp fd = none
  | .zombie => ∀ fd, filp fd = none

/-- A reserved entry has one descriptor, which is the task's. -/
theorem Ok.uses {count : Nat → Nat} {filp : Nat → Option Nat} {p : Phase I} {f : Nat}
    (h : p.Ok count filp) (hf : p.Uses f) : count f = 1 ∧ ∃ fd, filp fd = some f ∧ p.Makes fd := by
  cases p with
  | opening fd f' flag =>
    obtain rfl : f' = f := hf
    exact ⟨h.2, fd, h.1, rfl⟩
  | holding fd f' flag i =>
    obtain rfl : f' = f := hf
    exact ⟨h.2, fd, h.1, rfl⟩
  | piping fd0 fd1 f0 f1 =>
    obtain ⟨h0, h1, -, -, hc0, hc1⟩ := h
    rcases hf with rfl | rfl
    · exact ⟨hc0, fd0, h0, .inl rfl⟩
    · exact ⟨hc1, fd1, h1, .inr rfl⟩
  | _ => exact absurd hf id

/-- The phase depends on the counts of the entries it uses only. -/
theorem Ok.congr {count count' : Nat → Nat} {filp : Nat → Option Nat} {p : Phase I}
    (h : p.Ok count filp) (hsame : ∀ f, p.Uses f → count' f = count f) : p.Ok count' filp := by
  cases p with
  | opening fd f flag => exact ⟨h.1, (hsame f rfl).trans h.2⟩
  | holding fd f flag i => exact ⟨h.1, (hsame f rfl).trans h.2⟩
  | piping fd0 fd1 f0 f1 =>
    obtain ⟨h0, h1, hfd, hf, hc0, hc1⟩ := h
    exact ⟨h0, h1, hfd, hf, (hsame f0 (.inl rfl)).trans hc0, (hsame f1 (.inr rfl)).trans hc1⟩
  | _ => exact h

/-- No entry is reserved, no descriptor is being made and no reference is on the way. -/
def Idle : Phase I → Prop
  | .user => True
  | .exiting _ => True
  | .zombie => True
  | _ => False

theorem Idle.uses {p : Phase I} (h : p.Idle) (f : Nat) : ¬ p.Uses f := by
  cases p <;> first | exact id | exact h.elim

theorem Idle.makes {p : Phase I} (h : p.Idle) (fd : Nat) : ¬ p.Makes fd := by
  cases p <;> first | exact id | exact h.elim

theorem Idle.flight {p : Phase I} (h : p.Idle) : p.flight = none := by
  cases p <;> first | rfl | exact h.elim

end Phase

namespace FileSys

variable {I : Type _}

/-! ## The invariant -/

/-- The descriptors of all tasks. -/
def slots : Finset (Nat × Nat) :=
  Finset.range nrTasks ×ˢ Finset.range nrOpen

theorem mem_slots {t fd : Nat} : (t, fd) ∈ slots ↔ t < nrTasks ∧ fd < nrOpen := by
  rw [slots, Finset.mem_product, Finset.mem_range, Finset.mem_range]

attribute [irreducible] slots

def slot (s : FileSys I) (x : Nat × Nat) : Option Nat :=
  (s.task x.1).bind fun F => F.filp x.2

def count (s : FileSys I) (f : Nat) : Nat := (s.file f).fCount

/-- The call of some task has reserved the entry. -/
def Reserved (s : FileSys I) (f : Nat) : Prop :=
  ∃ t F, s.task t = some F ∧ F.phase.Uses f

open Classical in
/-- The inode that an entry of the file table has a reference to. -/
noncomputable def held (s : FileSys I) (f : Nat) : Option I :=
  if 0 < s.count f ∧ ¬ s.Reserved f then (s.file f).fInode else none

/-- The inode that a call has a reference to. -/
def flight (s : FileSys I) (t : Nat) : Option I :=
  (s.task t).bind fun F => F.phase.flight

/-- The descriptors of one task. -/
structure FilesOk (s : FileSys I) (F : Files I) : Prop where
  bound : ∀ fd f, F.filp fd = some f → fd < nrOpen ∧ f < nrFile
  cloexec : ∀ fd, F.closeOnExec.getLsbD fd = true → F.filp fd ≠ none ∧ ¬ F.phase.Makes fd
  phase : F.phase.Ok s.count F.filp

variable {s s' : FileSys I} {t u fd f : Nat} {F F' G : Files I} {i : I} {v : Option Nat}

@[simp, grind =]
theorem count_setTask : (s.setTask t F).count f = s.count f := rfl

@[simp, grind =]
theorem file_setTask : (s.setTask t F).file f = s.file f := rfl

@[simp, grind =]
theorem count_setCount {g n : Nat} : (s.setCount f n).count g = if g = f then n else s.count g := by
  by_cases hg : g = f
  · simp [count, setCount, setFile, hg]
  · simp [count, setCount, setFile, hg]

@[simp, grind =]
theorem fInode_setCount {g n : Nat} :
    ((s.setCount f n).file g).fInode = (s.file g).fInode := by
  by_cases hg : g = f
  · simp [setCount, setFile, hg]
  · simp [setCount, setFile, hg]

@[simp, grind =]
theorem count_useFile {g : Nat} :
    (s.useFile f).count g = s.count g + if g = f then 1 else 0 := by
  unfold useFile
  rw [count_setCount]
  by_cases hg : g = f
  · subst hg
    simp [count]
  · simp [hg]

@[simp, grind =]
theorem fInode_useFile {g : Nat} : ((s.useFile f).file g).fInode = (s.file g).fInode :=
  fInode_setCount

theorem slot_eq_some (hF : s.task t = some F) : s.slot (t, fd) = F.filp fd := by
  simp [slot, hF]

theorem slot_change (hF : s.task t = some F) (htask : s'.task = Function.update s.task t (some F'))
    (hfilp : F'.filp = Function.update F.filp fd v) :
    s'.slot = Function.update s.slot (t, fd) v := by
  funext ⟨u, fd'⟩
  by_cases hu : u = t
  · subst hu
    by_cases hfd : fd' = fd
    · subst hfd
      simp [slot, htask, hfilp]
    · have hne : (u, fd') ≠ (u, fd) := fun he => hfd (Prod.mk.inj he).2
      rw [Function.update_of_ne hne]
      simp [slot, htask, hfilp, hfd, hF]
  · have hne : (u, fd') ≠ (t, fd) := fun he => hu (Prod.mk.inj he).1
    rw [Function.update_of_ne hne]
    simp [slot, htask, hu]

theorem slot_same (hF : s.task t = some F) (htask : s'.task = Function.update s.task t (some F'))
    (hfilp : F'.filp = F.filp) : s'.slot = s.slot := by
  have hself : F'.filp = Function.update F.filp 0 (F.filp 0) := by
    rw [hfilp, Function.update_eq_self]
  rw [slot_change hF htask hself]
  rw [← slot_eq_some hF, Function.update_eq_self]

theorem flight_eq (hF : s.task t = some F) : s.flight t = F.phase.flight := by
  simp [flight, hF]

theorem update_of_same {α β : Type _} [DecidableEq α] {f g : α → β} {a : α} {b : β} (ha : g a = b)
    (hrest : ∀ x, x ≠ a → g x = f x) : g = Function.update f a b := by
  funext x
  by_cases hx : x = a
  · rw [hx, Function.update_self, ha]
  · rw [Function.update_of_ne hx, hrest x hx]

theorem flight_change (htask : s'.task = Function.update s.task t (some F')) :
    s'.flight = Function.update s.flight t F'.phase.flight := by
  funext u
  by_cases hu : u = t
  · subst hu
    simp [flight, htask]
  · simp [flight, htask, hu]

theorem reserved_change (htask : s'.task = Function.update s.task t (some F')) :
    s'.Reserved f ↔ F'.phase.Uses f ∨ ∃ u G, u ≠ t ∧ s.task u = some G ∧ G.phase.Uses f := by
  unfold Reserved
  rw [htask]
  constructor
  · rintro ⟨u, G, hG, huse⟩
    by_cases hu : u = t
    · subst hu
      rw [Function.update_self] at hG
      cases hG
      exact .inl huse
    · rw [Function.update_of_ne hu] at hG
      exact .inr ⟨u, G, hu, hG, huse⟩
  · rintro (huse | ⟨u, G, hu, hG, huse⟩)
    · exact ⟨t, F', Function.update_self .., huse⟩
    · exact ⟨u, G, (Function.update_of_ne hu ..).trans hG, huse⟩

theorem reserved_iff (hF : s.task t = some F) :
    s.Reserved f ↔ F.phase.Uses f ∨ ∃ u G, u ≠ t ∧ s.task u = some G ∧ G.phase.Uses f :=
  reserved_change (by rw [← hF, Function.update_eq_self])

/-- An entry that stays in use or unused, with its inode, and stays reserved or not. -/
theorem held_same (hcount : 0 < s'.count f ↔ 0 < s.count f)
    (hinode : 0 < s.count f → (s'.file f).fInode = (s.file f).fInode)
    (hres : s'.Reserved f ↔ s.Reserved f) : s'.held f = s.held f := by
  by_cases h : 0 < s.count f ∧ ¬ s.Reserved f
  · have h' : 0 < s'.count f ∧ ¬ s'.Reserved f := ⟨hcount.mpr h.1, fun hr => h.2 (hres.mp hr)⟩
    rw [held, if_pos h', held, if_pos h]
    exact hinode h.1
  · have h' : ¬ (0 < s'.count f ∧ ¬ s'.Reserved f) :=
      fun h' => h ⟨hcount.mp h'.1, fun hr => h'.2 (hres.mpr hr)⟩
    rw [held, if_neg h', held, if_neg h]

theorem held_none (h : s.count f = 0 ∨ s.Reserved f) : s.held f = none := by
  unfold held
  rw [if_neg]
  rintro ⟨hpos, hres⟩
  rcases h with h0 | hr
  · omega
  · exact hres hr

theorem held_some (hpos : 0 < s.count f) (hres : ¬ s.Reserved f) : s.held f = (s.file f).fInode := by
  unfold held
  rw [if_pos ⟨hpos, hres⟩]

variable [DecidableEq I]

/-- `f_count` counts descriptors; `i_count` counts what the open files, the calls in progress and the
rest of the kernel hold; and a pipe has its page while somebody holds it, which nobody else does. -/
structure Inv (s : FileSys I) : Prop where
  counts : ∀ f, s.count f = refs slots s.slot f
  tasks : ∀ t F, s.task t = some F → t < nrTasks ∧ s.FilesOk F
  inodes : ∀ i, s.iCount i = refs (Finset.range nrFile) s.held i +
    refs (Finset.range nrTasks) s.flight i + s.others i
  pipes : ∀ i, s.iPipe i = true → s.others i = 0 ∧ 0 < s.iCount i

theorem Inv.mem_slots (h : s.Inv) (hF : s.task t = some F) (hf : F.filp fd = some f) :
    (t, fd) ∈ slots := by
  obtain ⟨ht, hok⟩ := h.tasks t F hF
  exact FileSys.mem_slots.mpr ⟨ht, (hok.bound fd f hf).1⟩

/-- An entry that a descriptor refers to is in use. -/
theorem Inv.count_pos (h : s.Inv) (hF : s.task t = some F) (hf : F.filp fd = some f) :
    0 < s.count f := by
  rw [h.counts]
  exact Lib.refs_pos_iff.mpr ⟨(t, fd), h.mem_slots hF hf, (slot_eq_some hF).trans hf⟩

/-- A reserved entry is referred to by the task that has reserved it, through the descriptor it makes. -/
theorem Inv.reserved (h : s.Inv) (hF : s.task t = some F) (hf : F.filp fd = some f)
    (hr : s.Reserved f) : F.phase.Uses f ∧ F.phase.Makes fd := by
  obtain ⟨u, G, hG, huse⟩ := hr
  obtain ⟨-, hok⟩ := h.tasks u G hG
  obtain ⟨hone, fd', hfd', hmake⟩ := hok.phase.uses huse
  have heq := Lib.eq_of_refs_eq_one ((h.counts f).symm.trans hone) (h.mem_slots hF hf)
    (h.mem_slots hG hfd') ((slot_eq_some hF).trans hf) ((slot_eq_some hG).trans hfd')
  obtain ⟨rfl, rfl⟩ := Prod.mk.inj heq
  cases hF.symm.trans hG
  exact ⟨huse, hmake⟩

/-- Two tasks do not reserve one entry. -/
theorem Inv.reserved_task (h : s.Inv) (hF : s.task t = some F) (hG : s.task u = some G)
    (hf : F.phase.Uses f) (hg : G.phase.Uses f) : t = u := by
  obtain ⟨-, hok⟩ := h.tasks t F hF
  obtain ⟨-, hok'⟩ := h.tasks u G hG
  obtain ⟨hone, fd, hfd, -⟩ := hok.phase.uses hf
  obtain ⟨-, fd', hfd', -⟩ := hok'.phase.uses hg
  have heq := Lib.eq_of_refs_eq_one ((h.counts f).symm.trans hone) (h.mem_slots hF hfd)
    (h.mem_slots hG hfd') ((slot_eq_some hF).trans hfd) ((slot_eq_some hG).trans hfd')
  exact (Prod.mk.inj heq).1

/-! ### One task changes -/

section Change

/-- The counts of descriptors after one descriptor changes. -/
theorem Inv.counts_change (h : s.Inv) (hmem : (t, fd) ∈ slots)
    (hslot : s'.slot = Function.update s.slot (t, fd) v)
    (hcount : ∀ f, s'.count f + (if s.slot (t, fd) = some f then 1 else 0) =
      s.count f + (if v = some f then 1 else 0)) (f : Nat) : s'.count f = refs slots s'.slot f := by
  have hrefs := Lib.refs_update (r := s.slot) (f := f) (v := v) hmem
  have hc := hcount f
  rw [h.counts f] at hc
  rw [hslot]
  omega

/-- What has to be checked when one task changes and everything else about tasks stays. -/
theorem Inv.change (h : s.Inv) (ht : t < nrTasks)
    (htask : s'.task = Function.update s.task t (some F'))
    (hcounts : ∀ f, s'.count f = refs slots s'.slot f) (hok : s'.FilesOk F')
    (hother : ∀ u G f, u ≠ t → s.task u = some G → G.phase.Uses f → s'.count f = s.count f)
    (hinodes : ∀ i, s'.iCount i = refs (Finset.range nrFile) s'.held i +
      refs (Finset.range nrTasks) s'.flight i + s'.others i)
    (hpipes : ∀ i, s'.iPipe i = true → s'.others i = 0 ∧ 0 < s'.iCount i) : s'.Inv := by
  refine ⟨hcounts, fun u G hG => ?_, hinodes, hpipes⟩
  rw [htask] at hG
  by_cases hu : u = t
  · subst hu
    rw [Function.update_self] at hG
    cases hG
    exact ⟨ht, hok⟩
  · rw [Function.update_of_ne hu] at hG
    obtain ⟨hlt, hok'⟩ := h.tasks u G hG
    exact ⟨hlt, hok'.bound, hok'.cloexec, hok'.phase.congr fun f hf => hother u G f hu hG hf⟩

/-- A phase follows that has the same entries and the same reference. -/
theorem Inv.setTask (h : s.Inv) (hF : s.task t = some F) (F' : Files I) (hok : s.FilesOk F')
    (hfilp : F'.filp = F.filp) (huses : ∀ f, F'.phase.Uses f ↔ F.phase.Uses f)
    (hflight : F'.phase.flight = F.phase.flight) : (s.setTask t F').Inv := by
  have htask : (s.setTask t F').task = Function.update s.task t (some F') := rfl
  have hsame : (s.setTask t F').flight = s.flight := by
    rw [flight_change htask, hflight]
    rw [← flight_eq hF, Function.update_eq_self]
  have hheld : (s.setTask t F').held = s.held := by
    funext f
    refine held_same Iff.rfl (fun _ => rfl) ?_
    rw [reserved_change htask, reserved_iff hF, huses]
  refine h.change (h.tasks t F hF).1 htask (fun f => ?_) ⟨hok.bound, hok.cloexec, hok.phase⟩
    (fun _ _ _ _ _ _ => rfl) (fun i => ?_) h.pipes
  · rw [slot_same hF htask hfilp]
    exact h.counts f
  · rw [hsame, hheld]
    exact h.inodes i

/-- The references to inodes after one entry and one call change. -/
theorem Inv.inodes_move (h : s.Inv) (hf : f < nrFile) (ht : t < nrTasks) {a b : Option I}
    (hheld : s'.held = Function.update s.held f a)
    (hflight : s'.flight = Function.update s.flight t b)
    (hcount : ∀ i, s'.iCount i + s.others i + (if s.held f = some i then 1 else 0) +
      (if s.flight t = some i then 1 else 0) = s.iCount i + s'.others i +
      (if a = some i then 1 else 0) + (if b = some i then 1 else 0)) (i : I) :
    s'.iCount i = refs (Finset.range nrFile) s'.held i +
      refs (Finset.range nrTasks) s'.flight i + s'.others i := by
  have hr := Lib.refs_update (r := s.held) (f := i) (v := a) (Finset.mem_range.mpr hf)
  have hr' := Lib.refs_update (r := s.flight) (f := i) (v := b) (Finset.mem_range.mpr ht)
  have hc := hcount i
  have h0 := h.inodes i
  rw [hheld, hflight]
  omega

/-- A descriptor is made for an entry: one that is in use, or a free one, which is reserved. -/
theorem Inv.link (h : s.Inv) (hF : s.task t = some F) (F' : Files I) (hfd : fd < nrOpen) (hnone : F.filp fd = none)
    (hf : f < nrFile) (hfilp : F'.filp = Function.update F.filp fd (some f))
    (hok : (s.useFile f).FilesOk F') (hflight : F'.phase.flight = F.phase.flight)
    (hcase : (0 < s.count f ∧ ¬ s.Reserved f ∧ ∀ g, F'.phase.Uses g ↔ F.phase.Uses g) ∨
      (s.count f = 0 ∧ ∀ g, F'.phase.Uses g ↔ F.phase.Uses g ∨ f = g)) :
    ((s.useFile f).setTask t F').Inv := by
  have ht := (h.tasks t F hF).1
  have htask : ((s.useFile f).setTask t F').task = Function.update s.task t (some F') := rfl
  have hcount : ∀ g, ((s.useFile f).setTask t F').count g = s.count g + if f = g then 1 else 0 := by
    grind
  have hinode : ∀ g, (((s.useFile f).setTask t F').file g).fInode = (s.file g).fInode := by
    grind
  have hres : ∀ g, f ≠ g → (((s.useFile f).setTask t F').Reserved g ↔ s.Reserved g) := by
    intro g hg
    rw [reserved_change htask, reserved_iff hF]
    rcases hcase with ⟨-, -, huses⟩ | ⟨-, huses⟩
    · rw [huses]
    · rw [huses]
      simp [hg]
  refine h.change ht htask (h.counts_change (FileSys.mem_slots.mpr ⟨ht, hfd⟩) (slot_change hF htask hfilp) ?_)
    ⟨hok.bound, hok.cloexec, hok.phase⟩ ?_ (h.inodes_move hf ht (a := s.held f) (b := s.flight t)
      (update_of_same ?_ fun g hg => ?_) ?_ fun i => rfl) h.pipes
  · intro g
    rw [hcount, slot_eq_some hF, hnone]
    simp
  · intro u G g hu hG huse
    rw [hcount]
    by_cases hg : f = g
    · -- an entry that another task has reserved is in use and reserved
      subst hg
      rcases hcase with ⟨-, hnres, -⟩ | ⟨hzero, -⟩
      · exact absurd ⟨u, G, hG, huse⟩ hnres
      · have hone := ((h.tasks u G hG).2.phase.uses huse).1
        omega
    · rw [if_neg hg]
      rfl
  · rcases hcase with ⟨hpos, hnres, huses⟩ | ⟨hzero, huses⟩
    · refine held_same ?_ (fun _ => hinode f) ?_
      · rw [hcount]
        exact iff_of_true (by omega) hpos
      · rw [reserved_change htask, reserved_iff hF, huses]
    · rw [held_none (.inl hzero), held_none (.inr ?_)]
      exact (reserved_change htask).mpr (.inl ((huses f).mpr (.inr rfl)))
  · refine held_same ?_ (fun _ => hinode g) (hres g (Ne.symm hg))
    rw [hcount, if_neg (Ne.symm hg)]
    rfl
  · rw [flight_change htask, hflight, flight_eq hF]

/-- A descriptor of `f` is closed. Of the reference that the open file has, either nothing changes or
it goes to the call. -/
theorem Inv.unlink (h : s.Inv) (hF : s.task t = some F) (hfd : F.filp fd = some f)
    (hfilp : F'.filp = Function.update F.filp fd none)
    (hok : (s.setCount f (s.count f - 1)).FilesOk F')
    (huses : ∀ g, g ≠ f → (F'.phase.Uses g ↔ F.phase.Uses g)) {a : Option I}
    (hheld : ((s.setCount f (s.count f - 1)).setTask t F').held f = a)
    (hmove : (a = s.held f ∧ F'.phase.flight = F.phase.flight) ∨
      (a = none ∧ F.phase.flight = none ∧ F'.phase.flight = s.held f)) :
    ((s.setCount f (s.count f - 1)).setTask t F').Inv := by
  have ht := (h.tasks t F hF).1
  have hpos := h.count_pos hF hfd
  have hf := ((h.tasks t F hF).2.bound fd f hfd).2
  have htask : ((s.setCount f (s.count f - 1)).setTask t F').task =
    Function.update s.task t (some F') := rfl
  refine h.change ht htask (h.counts_change (h.mem_slots hF hfd) (slot_change hF htask hfilp) ?_)
    ⟨hok.bound, hok.cloexec, hok.phase⟩ ?_ (h.inodes_move hf ht (a := a) (b := F'.phase.flight)
      (update_of_same hheld fun g hg => ?_) (flight_change htask) ?_) h.pipes
  · intro g
    rw [slot_eq_some hF, hfd]
    by_cases hg : f = g
    · subst hg
      simp
      omega
    · simp [hg, Ne.symm hg]
  · intro u G g hu hG huse
    by_cases hg : g = f
    · -- the entry is reserved by another task, which has its only descriptor
      subst hg
      exact absurd (h.reserved_task hG hF huse (h.reserved hF hfd ⟨u, G, hG, huse⟩).1) hu
    · simp [hg]
  · refine held_same (by simp [hg]) (fun _ => by simp) ?_
    rw [reserved_change htask, reserved_iff hF, huses g hg]
  · intro i
    rw [flight_eq hF]
    show s.iCount i + s.others i + _ + _ = s.iCount i + s.others i + _ + _
    rcases hmove with ⟨rfl, hsame⟩ | ⟨rfl, hnone, hmoved⟩
    · rw [hsame]
    · rw [hnone, hmoved]
      simp

/-- One of several descriptors of an entry is closed. -/
theorem Inv.unlink_shared (h : s.Inv) (hF : s.task t = some F) (hfd : F.filp fd = some f)
    (hfilp : F'.filp = Function.update F.filp fd none)
    (hok : (s.setCount f (s.count f - 1)).FilesOk F') (hcount : 1 < s.count f)
    (huses : ∀ g, F'.phase.Uses g ↔ F.phase.Uses g) (hflight : F'.phase.flight = F.phase.flight) :
    ((s.setCount f (s.count f - 1)).setTask t F').Inv := by
  refine h.unlink hF hfd hfilp hok (fun g _ => huses g) (a := s.held f) ?_ (.inl ⟨rfl, hflight⟩)
  refine held_same ?_ (fun _ => by simp) ?_
  · simp
    omega
  · rw [reserved_change rfl, reserved_iff hF, huses]
    rfl

/-- The call that has reserved an entry gives it up. -/
theorem Inv.unlink_reserved (h : s.Inv) (hF : s.task t = some F) (hfd : F.filp fd = some f)
    (hfilp : F'.filp = Function.update F.filp fd none)
    (hok : (s.setCount f 0).FilesOk F') (hf : F.phase.Uses f)
    (huses : ∀ g, g ≠ f → (F'.phase.Uses g ↔ F.phase.Uses g))
    (hflight : F'.phase.flight = F.phase.flight) : ((s.setCount f 0).setTask t F').Inv := by
  have hone := ((h.tasks t F hF).2.phase.uses hf).1
  have hzero : s.count f - 1 = 0 := by omega
  rw [← hzero] at hok ⊢
  refine h.unlink hF hfd hfilp hok huses (a := none) (held_none (.inl ?_)) (.inl ⟨?_, hflight⟩)
  · simp [hzero]
  · exact (held_none (.inr ⟨t, F, hF, hf⟩)).symm

/-- The last descriptor is closed: the call takes the reference of the open file. -/
theorem Inv.unlink_last (h : s.Inv) (hF : s.task t = some F) (hfd : F.filp fd = some f)
    (hfilp : F'.filp = Function.update F.filp fd none)
    (hok : (s.setCount f 0).FilesOk F') (hone : s.count f = 1)
    (hfree : ¬ F.phase.Uses f) (huses : ∀ g, F'.phase.Uses g ↔ F.phase.Uses g)
    (hnone : F.phase.flight = none) (hflight : F'.phase.flight = (s.file f).fInode) :
    ((s.setCount f 0).setTask t F').Inv := by
  have hzero : s.count f - 1 = 0 := by omega
  have hres : ¬ s.Reserved f := fun hr => hfree (h.reserved hF hfd hr).1
  rw [← hzero] at hok ⊢
  refine h.unlink hF hfd hfilp hok (fun g _ => huses g) (a := none) (held_none (.inl ?_))
    (.inr ⟨rfl, hnone, ?_⟩)
  · simp [hzero]
  · rw [hflight, held_some (by omega) hres]

/-- `iput` of the reference that the call has, which there is: it does not panic. -/
theorem Inv.iput (h : s.Inv) (hF : s.task t = some F) (F' : Files I) (hok : s.FilesOk F')
    (hfilp : F'.filp = F.filp) (huses : ∀ f, F'.phase.Uses f ↔ F.phase.Uses f)
    (hnone : F'.phase.flight = none) :
    ∃ s', s.iput F.phase.flight = .ok s' ∧ s'.task = s.task ∧ s'.file = s.file ∧
      (s'.setTask t F').Inv := by
  have ht := (h.tasks t F hF).1
  cases hi : F.phase.flight with
  | none => exact ⟨s, rfl, rfl, rfl, h.setTask hF _ hok hfilp huses (hnone.trans hi.symm)⟩
  | some i =>
    have hpos : 0 < s.iCount i := by
      rw [h.inodes i]
      have hone : 0 < refs (Finset.range nrTasks) s.flight i :=
        Lib.refs_pos_iff.mpr ⟨t, Finset.mem_range.mpr ht, (flight_eq hF).trans hi⟩
      omega
    refine ⟨_, if_neg (by omega), rfl, rfl, ?_⟩
    refine h.change ht rfl (fun f => ?_) ⟨hok.bound, hok.cloexec, hok.phase⟩
      (fun _ _ _ _ _ _ => rfl) (h.inodes_move (f := 0) (by decide) ht (a := s.held 0) (b := none)
        ?_ ?_ fun j => ?_) fun j hj => ?_
    · rw [slot_same hF rfl hfilp]
      exact h.counts f
    · rw [Function.update_eq_self]
      funext f
      refine held_same Iff.rfl (fun _ => rfl) ?_
      rw [reserved_change rfl, reserved_iff hF, huses]
    · rw [flight_change rfl, hnone]
      rfl
    · rw [flight_eq hF, hi]
      by_cases hj : i = j
      · subst hj
        simp [FileSys.setTask]
        omega
      · simp [FileSys.setTask, hj, Ne.symm hj]
    · by_cases hij : j = i
      · subst hij
        by_cases hone : s.iCount j = 1
        · simp [FileSys.setTask, hone] at hj
        · simp [FileSys.setTask, hone] at hj ⊢
          exact ⟨(h.pipes j hj).1, by omega⟩
      · have hpipe : s.iPipe j = true := by
          by_cases hone : s.iCount i = 1
          · simpa [FileSys.setTask, hone, hij] using hj
          · simpa [FileSys.setTask, hone] using hj
        simpa [FileSys.setTask, hij] using h.pipes j hpipe

/-- A reserved entry gets its inode, and with it the reference of the call or a new one. -/
theorem Inv.establish (h : s.Inv) (hF : s.task t = some F) (hf : F.phase.Uses f) (F' : Files I)
    (i : I) (htask : s'.task = Function.update s.task t (some F'))
    (hfile : ∀ g, g ≠ f → s'.file g = s.file g) (hone : s'.count f = 1)
    (hinode : (s'.file f).fInode = some i) (hok : s'.FilesOk F') (hfilp : F'.filp = F.filp)
    (huses : ∀ g, F'.phase.Uses g ↔ F.phase.Uses g ∧ g ≠ f)
    (hcount : ∀ j, s'.iCount j + s.others j + (if F.phase.flight = some j then 1 else 0) =
      s.iCount j + s'.others j + (if i = j then 1 else 0) +
        (if F'.phase.flight = some j then 1 else 0))
    (hpipes : ∀ i, s'.iPipe i = true → s'.others i = 0 ∧ 0 < s'.iCount i) : s'.Inv := by
  obtain ⟨ht, hokF⟩ := h.tasks t F hF
  obtain ⟨hone', fd, hfd, -⟩ := hokF.phase.uses hf
  have hcounts : s'.count = s.count := by
    funext g
    by_cases hg : g = f
    · rw [hg, hone, hone']
    · unfold FileSys.count
      rw [hfile g hg]
  refine h.change ht htask (fun g => ?_) hok (fun _ _ g _ _ _ => congrFun hcounts g)
    (h.inodes_move (hokF.bound fd f hfd).2 ht (a := some i) (b := F'.phase.flight)
      (update_of_same ?_ fun g hg => ?_) (flight_change htask) fun j => ?_) hpipes
  · rw [slot_same hF htask hfilp, hcounts]
    exact h.counts g
  · rw [held_some (by omega), hinode]
    rw [reserved_change htask, huses]
    rintro (⟨-, hne⟩ | ⟨u, G, hu, hG, huse⟩)
    · exact hne rfl
    · exact hu (h.reserved_task hG hF huse hf)
  · refine held_same (by rw [hcounts]) (fun _ => by rw [hfile g hg]) ?_
    rw [reserved_change htask, reserved_iff hF, huses]
    simp [hg]
  · have hj := hcount j
    rw [held_none (.inr ⟨t, F, hF, hf⟩), flight_eq hF]
    simp
    omega

/-- A task that has no descriptors appears, or goes away. -/
theorem Inv.blank (h : s.Inv) (ht : t < nrTasks) {o : Option (Files I)}
    (hold : ∀ F, s.task t = some F → (∀ fd, F.filp fd = none) ∧ (∀ f, ¬ F.phase.Uses f) ∧
      F.phase.flight = none)
    (hnew : ∀ F, o = some F → (∀ fd, F.filp fd = none) ∧ F.closeOnExec = 0 ∧ F.phase = .user) :
    { s with task := Function.update s.task t o }.Inv := by
  have hself : { s with task := Function.update s.task t o }.task t = o := Function.update_self ..
  have hslot : { s with task := Function.update s.task t o }.slot = s.slot := by
    funext ⟨u, fd⟩
    by_cases hu : u = t
    · subst hu
      have hleft : (o.bind fun F => F.filp fd) = none := by
        cases o with
        | none => rfl
        | some F => exact (hnew F rfl).1 fd
      have hright : ((s.task u).bind fun F => F.filp fd) = none := by
        cases hF : s.task u with
        | none => rfl
        | some F => exact (hold F hF).1 fd
      simp only [slot, Function.update_self, hleft, hright]
    · simp [slot, hu]
  have hflight : { s with task := Function.update s.task t o }.flight = s.flight := by
    funext u
    by_cases hu : u = t
    · subst hu
      have hleft : (o.bind fun F => F.phase.flight) = none := by
        cases o with
        | none => rfl
        | some F => simp [(hnew F rfl).2.2, Phase.flight]
      have hright : ((s.task u).bind fun F => F.phase.flight) = none := by
        cases hF : s.task u with
        | none => rfl
        | some F => exact (hold F hF).2.2
      simp only [flight, Function.update_self, hleft, hright]
    · simp [flight, hu]
  have hres : ∀ f, { s with task := Function.update s.task t o }.Reserved f ↔ s.Reserved f := by
    intro f
    constructor
    · rintro ⟨u, F, hF, huse⟩
      by_cases hu : u = t
      · subst hu
        rw [(hnew F (hself.symm.trans hF)).2.2] at huse
        exact huse.elim
      · exact ⟨u, F, (Function.update_of_ne hu ..).symm.trans hF, huse⟩
    · rintro ⟨u, F, hF, huse⟩
      by_cases hu : u = t
      · subst hu
        exact absurd huse ((hold F hF).2.1 f)
      · exact ⟨u, F, (Function.update_of_ne hu ..).trans hF, huse⟩
  have hheld : { s with task := Function.update s.task t o }.held = s.held :=
    funext fun f => held_same Iff.rfl (fun _ => rfl) (hres f)
  refine ⟨fun f => ?_, fun u F hF => ?_, fun i => ?_, h.pipes⟩
  · rw [hslot]
    exact h.counts f
  · by_cases hu : u = t
    · subst hu
      obtain ⟨hfilp, hexec, hphase⟩ := hnew F (hself.symm.trans hF)
      refine ⟨ht, fun fd f hfd => ?_, fun fd hfd => ?_, ?_⟩
      · rw [hfilp] at hfd
        cases hfd
      · rw [hexec] at hfd
        simp at hfd
      · rw [hphase]
        trivial
    · obtain ⟨hlt, hok⟩ := h.tasks u F ((Function.update_of_ne hu ..).symm.trans hF)
      exact ⟨hlt, hok.bound, hok.cloexec, hok.phase⟩
  · rw [hheld, hflight]
    exact h.inodes i

end Change

/-! ### The calls -/

section Calls

/-- A step that returns, with `Inv` again. -/
def Keeps (r : Result I) : Prop :=
  Lib.Post r (fun p => p.2.Inv) fun _ => False

theorem keeps_ok {r : Option Int} (h : s.Inv) : Keeps (.ok (r, s)) := Lib.Post.ret h

theorem Keeps.step {r : Result I} (h : Keeps r) : Lib.Post (r.map (·.2)) Inv fun _ => False := by
  cases r with
  | error e => exact .stop (h.of_error e rfl)
  | ok p => exact .ret (h.of_ok p rfl)

omit [DecidableEq I] in
@[simp]
theorem setTask_setTask : (s.setTask t F).setTask t F' = s.setTask t F' := by
  simp [FileSys.setTask]

omit [DecidableEq I] in
theorem task_setTask : (s.setTask t F).task t = some F := by
  simp [FileSys.setTask]

omit [DecidableEq I] in
theorem mem_free {a : Nat} : fd ∈ F.free a ↔ fd < nrOpen ∧ a ≤ fd ∧ F.filp fd = none := by
  simp [Files.free]

omit [DecidableEq I] in
theorem mem_freeFiles : f ∈ s.freeFiles ↔ f < nrFile ∧ s.count f = 0 := by
  simp [freeFiles, count]

omit [DecidableEq I] in
theorem free_cons {a : Nat} {l : List Nat} (h : F.free a = fd :: l) :
    fd < nrOpen ∧ F.filp fd = none := by
  obtain ⟨hfd, -, hnone⟩ := mem_free.mp (h ▸ List.mem_cons_self : fd ∈ F.free a)
  exact ⟨hfd, hnone⟩

omit [DecidableEq I] in
theorem free_cons_cons {a fd' : Nat} {l : List Nat} (h : F.free a = fd :: fd' :: l) :
    fd' < nrOpen ∧ F.filp fd' = none ∧ fd ≠ fd' := by
  obtain ⟨hfd, -, hnone⟩ := mem_free.mp
    (h ▸ List.mem_cons_of_mem _ List.mem_cons_self : fd' ∈ F.free a)
  have hnodup : (F.free a).Nodup := List.nodup_range.filter _
  rw [h] at hnodup
  exact ⟨hfd, hnone, by grind⟩

omit [DecidableEq I] in
theorem freeFiles_cons {l : List Nat} (h : s.freeFiles = f :: l) : f < nrFile ∧ s.count f = 0 :=
  mem_freeFiles.mp (h ▸ List.mem_cons_self)

omit [DecidableEq I] in
theorem freeFiles_cons_cons {f' : Nat} {l : List Nat} (h : s.freeFiles = f :: f' :: l) :
    f' < nrFile ∧ s.count f' = 0 ∧ f ≠ f' := by
  obtain ⟨hf, hzero⟩ := mem_freeFiles.mp
    (h ▸ List.mem_cons_of_mem _ List.mem_cons_self : f' ∈ s.freeFiles)
  have hnodup : s.freeFiles.Nodup := List.nodup_range.filter _
  rw [h] at hnodup
  exact ⟨hf, hzero, by grind⟩

omit [DecidableEq I] in
theorem clearExec_bit {k : Nat} : (F.clearExec fd).closeOnExec.getLsbD k = true ↔
    F.closeOnExec.getLsbD k = true ∧ k ≠ fd := by
  simp only [Files.clearExec, BitVec.getLsbD_and, BitVec.getLsbD_not, BitVec.getLsbD_shiftLeft,
    Bool.and_eq_true]
  constructor
  · rintro ⟨hk, hn⟩
    refine ⟨hk, ?_⟩
    rintro rfl
    have hlt := BitVec.lt_of_getLsbD hk
    simp [hlt] at hn
  · rintro ⟨hk, hne⟩
    have hlt := BitVec.lt_of_getLsbD hk
    refine ⟨hk, ?_⟩
    by_cases hlt' : k < fd
    · simp [hlt, hlt']
    · have hpos : k - fd ≠ 0 := by omega
      simp [hlt, hpos]

omit [DecidableEq I] in
/-- One descriptor changes; its bit in `close_on_exec` is clear. -/
theorem FilesOk.update (h : s.FilesOk F) (hfilp : F'.filp = Function.update F.filp fd v)
    (hv : ∀ f, v = some f → fd < nrOpen ∧ f < nrFile)
    (hexec : ∀ k, F'.closeOnExec.getLsbD k = true → F.closeOnExec.getLsbD k = true ∧ k ≠ fd)
    (hmakes : ∀ k, k ≠ fd → F'.phase.Makes k → F.phase.Makes k)
    (hphase : F'.phase.Ok s'.count F'.filp) : s'.FilesOk F' := by
  refine ⟨fun k f hk => ?_, fun k hk => ?_, hphase⟩
  · rw [hfilp] at hk
    by_cases hkfd : k = fd
    · subst hkfd
      rw [Function.update_self] at hk
      exact hv f hk
    · rw [Function.update_of_ne hkfd] at hk
      exact h.bound k f hk
  · obtain ⟨hbit, hne⟩ := hexec k hk
    obtain ⟨hopen, hnot⟩ := h.cloexec k hbit
    refine ⟨?_, fun hm => hnot (hmakes k hne hm)⟩
    rw [hfilp, Function.update_of_ne hne]
    exact hopen

omit [DecidableEq I] in
/-- The descriptors stay as they are. -/
theorem FilesOk.move (h : s.FilesOk F) (hfilp : F'.filp = F.filp)
    (hexec : ∀ k, F'.closeOnExec.getLsbD k = true → F.closeOnExec.getLsbD k = true)
    (hmakes : ∀ k, F'.phase.Makes k → F.phase.Makes k)
    (hphase : F'.phase.Ok s'.count F'.filp) : s'.FilesOk F' := by
  refine ⟨fun k f hk => h.bound k f (hfilp ▸ hk), fun k hk => ?_, hphase⟩
  obtain ⟨hopen, hnot⟩ := h.cloexec k (hexec k hk)
  exact ⟨hfilp ▸ hopen, fun hm => hnot (hmakes k hm)⟩

/-- A task without a call in progress goes on in another such phase. -/
theorem Inv.rest (h : s.Inv) (hF : s.task t = some F) {p : Phase I} (hidle : F.phase.Idle)
    (hp : p.Idle) (hok : p.Ok s.count F.filp) : (s.setTask t { F with phase := p }).Inv := by
  refine h.setTask hF _ ((h.tasks t F hF).2.move rfl (fun _ hk => hk) (fun k hk => ?_) hok) rfl
    (fun f => iff_of_false (hp.uses f) (hidle.uses f)) (hp.flight.trans hidle.flight.symm)
  exact absurd hk (hp.makes k)

/-! #### `sys_open` -/

theorem keeps_sysOpen (h : s.Inv) (hF : s.task t = some F) (hp : F.phase = .user)
    {flag : BitVec 32} : Keeps (s.sysOpen t F flag) := by
  have hok := (h.tasks t F hF).2
  unfold sysOpen
  cases hfree : F.free 0 with
  | nil => exact keeps_ok h
  | cons fd fds =>
    obtain ⟨hfd, hnone⟩ := free_cons hfree
    cases hfiles : s.freeFiles with
    | nil =>
      refine keeps_ok (h.setTask hF _ (hok.move rfl (fun k hk => (clearExec_bit.mp hk).1)
        (fun _ hk => hk) hok.phase) rfl (fun _ => Iff.rfl) rfl)
    | cons f fs =>
      obtain ⟨hf, hzero⟩ := freeFiles_cons hfiles
      refine keeps_ok (h.link hF _ hfd hnone hf rfl (hok.update rfl ?_ ?_ ?_ ?_) ?_ (.inr ⟨hzero, ?_⟩))
      · rintro g ⟨⟩
        exact ⟨hfd, hf⟩
      · intro k hk
        exact clearExec_bit.mp hk
      · intro k hk hm
        exact absurd hm.symm hk
      · refine ⟨Function.update_self .., ?_⟩
        simp [hzero]
      · simp [hp, Phase.flight]
      · simp [hp, Phase.Uses]

/-- A call that has failed gives its entry up. -/
theorem Inv.giveUp (h : s.Inv) (hF : s.task t = some F) {flag : BitVec 32}
    (hp : F.phase = .opening fd f flag) : (s.giveUp t F fd f).Inv := by
  have hok := (h.tasks t F hF).2
  obtain ⟨hfd, hone⟩ : F.filp fd = some f ∧ s.count f = 1 := by
    simpa [hp, Phase.Ok] using hok.phase
  refine h.unlink_reserved hF hfd rfl (hok.update rfl (by simp) (fun k hk => ⟨hk, ?_⟩) ?_ trivial)
    (by simp [hp, Phase.Uses]) (fun g hg => ?_) (by simp [hp, Phase.flight])
  · rintro rfl
    exact (hok.cloexec k hk).2 (by simp [hp, Phase.Makes])
  · intro k hk hm
    exact hm.elim
  · simp [hp, Phase.Uses, Ne.symm hg]

theorem keeps_opened (h : s.Inv) (hF : s.task t = some F) {flag : BitVec 32}
    (hp : F.phase = .opening fd f flag) {r : Except Int I}
    (hr : ∀ i, r = .ok i → s.iPipe i = false) : Keeps (s.opened t F fd f flag r) := by
  have hok := (h.tasks t F hF).2
  cases r with
  | error e => exact keeps_ok (h.giveUp hF hp)
  | ok i =>
    have huses : ∀ g, (Phase.holding fd f flag i).Uses g ↔ F.phase.Uses g := by
      simp [hp, Phase.Uses]
    have htask : ({ s with iCount := Function.update s.iCount i (s.iCount i + 1) }.setTask t
      { F with phase := .holding fd f flag i }).task =
        Function.update s.task t (some { F with phase := .holding fd f flag i }) := rfl
    refine keeps_ok (h.change (h.tasks t F hF).1 htask (fun g => ?_) ?_ (fun _ _ _ _ _ _ => rfl)
      (h.inodes_move (f := 0) (by decide) (h.tasks t F hF).1 (a := s.held 0) (b := some i)
        ?_ ?_ fun j => ?_) fun j hj => ?_)
    · rw [slot_same hF htask rfl]
      exact h.counts g
    · refine hok.move rfl (fun _ hk => hk) ?_ ?_
      · simp [hp, Phase.Makes]
      · have hphase := hok.phase
        rw [hp] at hphase
        exact hphase
    · rw [Function.update_eq_self]
      funext g
      refine held_same Iff.rfl (fun _ => rfl) ?_
      rw [reserved_change htask, reserved_iff hF, huses]
    · rw [flight_change htask]
      rfl
    · rw [flight_eq hF, hp]
      by_cases hj : i = j
      · subst hj
        simp [FileSys.setTask, Phase.flight]
        omega
      · simp [FileSys.setTask, Phase.flight, hj, Ne.symm hj]
    · have hij : j ≠ i := by
        rintro rfl
        exact absurd (hr j rfl) (by simpa [FileSys.setTask] using hj)
      simpa [FileSys.setTask, hij] using h.pipes j hj

theorem keeps_finishOpen (h : s.Inv) (hF : s.task t = some F) {flag : BitVec 32}
    (hp : F.phase = .holding fd f flag i) : Keeps (s.finishOpen t F fd f flag i) := by
  have hok := (h.tasks t F hF).2
  obtain ⟨hfd, hone⟩ : F.filp fd = some f ∧ s.count f = 1 := by
    simpa [hp, Phase.Ok] using hok.phase
  unfold finishOpen
  by_cases htty : (isChrMode (s.iMode i) && s.iZone0 i / 256 == 5 && F.tty < 0) = true
  · rw [if_pos htty]
    -- after the `iput` the call is as if `open_namei` had failed
    obtain ⟨s', hput, htask, hfile, hinv⟩ := h.iput hF { F with phase := .opening fd f flag }
      (hok.move rfl (fun _ hk => hk) (by simp [hp, Phase.Makes]) ⟨hfd, hone⟩) rfl
      (by simp [hp, Phase.Uses]) rfl
    have hflight : F.phase.flight = some i := by simp [hp, Phase.flight]
    rw [hflight] at hput
    rw [hput]
    have hgive := hinv.giveUp task_setTask rfl
    refine keeps_ok ?_
    have heq : s'.giveUp t F fd f =
        (s'.setTask t { F with phase := .opening fd f flag }).giveUp t
          { F with phase := .opening fd f flag } fd f := by
      simp [FileSys.giveUp, FileSys.setTask, setCount, setFile, Files.setFilp]
    rw [heq]
    exact hgive
  · rw [if_neg htty]
    refine keeps_ok (h.establish hF (f := f) (by simp [hp, Phase.Uses])
      { F with tty := s.openTty F i, phase := .user } i rfl (fun g hg => ?_) ?_ ?_
      (hok.move rfl (fun _ hk => hk) ?_ trivial) rfl ?_ (fun j => ?_) h.pipes)
    · simp [FileSys.setTask, setFile, hg]
    · simp [FileSys.setTask, setFile, FileSys.count]
    · simp [FileSys.setTask, setFile]
    · intro k hk
      exact hk.elim
    · intro g
      simp [hp, Phase.Uses]
      exact fun heq => heq.symm
    · simp [hp, Phase.flight, FileSys.setTask, setFile]

/-! #### `sys_close` and `dupfd` -/

omit [DecidableEq I] in
theorem dupfd_setTask {p : Phase I} {arg : Nat} :
    (s.setTask t G).dupfd t { F with phase := p } fd arg = s.dupfd t F fd arg := by
  simp [dupfd, useFile, setCount, setFile, FileSys.setTask, Files.free, Files.setFilp,
    Files.clearExec]

omit [DecidableEq I] in
theorem resume_setTask {p : Phase I} {r : Int} {k : Cont} :
    (s.setTask t G).resume t { F with phase := p } r k = s.resume t F r k := by
  cases k with
  | ret => simp [resume]
  | dup fd arg => simp only [resume, dupfd_setTask]
  | exit fd => simp [resume]

theorem inv_dupfd (h : s.Inv) (hF : s.task t = some F) (hp : F.phase = .user) {arg : Nat} :
    (s.dupfd t F fd arg).2.Inv := by
  have hok := (h.tasks t F hF).2
  have hsame : (s.setTask t { F with phase := .user }).Inv := by
    refine h.rest hF ?_ trivial trivial
    rw [hp]
    trivial
  unfold dupfd
  split
  · exact hsame
  · rename_i f hfd
    have hf : F.filp fd = some f := by
      by_cases hlt : fd < nrOpen
      · rwa [if_pos hlt] at hfd
      · rw [if_neg hlt] at hfd
        cases hfd
    by_cases harg : nrOpen ≤ arg
    · rw [if_pos harg]
      exact hsame
    · rw [if_neg harg]
      cases hfree : F.free arg with
      | nil => exact hsame
      | cons fd' fds =>
        obtain ⟨hlt, hnone⟩ := free_cons hfree
        have hlt' := (hok.bound fd f hf).2
        refine h.link hF _ hlt hnone hlt' rfl (hok.update rfl ?_ (fun k hk => clearExec_bit.mp hk)
          (fun k _ hm => hm.elim) trivial) (by simp [hp]) (.inl ⟨h.count_pos hF hf, ?_, ?_⟩)
        · rintro g ⟨⟩
          exact ⟨hlt, hlt'⟩
        · intro hr
          have huse := (h.reserved hF hf hr).1
          rw [hp] at huse
          exact huse.elim
        · simp [hp]

theorem inv_resume (h : s.Inv) (hF : s.task t = some F) (hp : F.phase = .user) {k : Cont}
    (hk : k.Ok F.filp) {r : Int} : (s.resume t F r k).2.Inv := by
  have hidle : F.phase.Idle := by
    rw [hp]
    trivial
  cases k with
  | ret => exact h.rest hF hidle trivial trivial
  | dup fd arg => exact inv_dupfd h hF hp
  | exit fd => exact h.rest hF hidle trivial hk

theorem keeps_sysClose (h : s.Inv) (hF : s.task t = some F) (hp : F.phase.Idle) {k : Cont}
    (hk : k.Ok (Function.update F.filp fd none)) : Keeps (s.sysClose t F fd k) := by
  have hok := (h.tasks t F hF).2
  have huser : (s.setTask t { F with phase := .user }).Inv := h.rest hF hp trivial trivial
  unfold sysClose
  by_cases hlt : nrOpen ≤ fd
  · rw [if_pos hlt]
    have hnone : F.filp fd = none := by
      cases hfd : F.filp fd with
      | none => rfl
      | some f => exact absurd (hok.bound fd f hfd).1 (by omega)
    rw [← hnone, Function.update_eq_self] at hk
    rw [← resume_setTask]
    exact keeps_ok (inv_resume huser task_setTask rfl hk)
  · rw [if_neg hlt]
    have hfilp : (F.clearExec fd).filp fd = F.filp fd := rfl
    simp only [hfilp]
    cases hfd : F.filp fd with
    | none =>
      have hclear : (s.setTask t { F.clearExec fd with phase := .user }).Inv :=
        h.setTask hF _ (hok.move rfl (fun k hk => (clearExec_bit.mp hk).1)
          (fun _ hm => hm.elim) trivial) rfl (fun f => iff_of_false id (hp.uses f)) hp.flight.symm
      rw [← hfd, Function.update_eq_self] at hk
      rw [← resume_setTask]
      exact keeps_ok (inv_resume hclear task_setTask rfl hk)
    | some f =>
      have hpos := h.count_pos hF hfd
      have hpos' : (s.file f).fCount ≠ 0 := by
        unfold count at hpos
        omega
      have hclosed : ∀ p : Phase I, p.Ok (s.setCount f (s.count f - 1)).count
            (Function.update F.filp fd none) → (∀ k, ¬ p.Makes k) →
          (s.setCount f (s.count f - 1)).FilesOk
            { (F.clearExec fd).setFilp fd none with phase := p } := by
        intro p hphase hmakes
        exact hok.update rfl (by simp) (fun k hk => clearExec_bit.mp hk)
          (fun k _ hm => absurd hm (hmakes k)) hphase
      simp only [hpos', if_false]
      by_cases hone : (s.file f).fCount - 1 = 0
      · -- the last descriptor: the call goes on in `iput`
        have hcount : s.count f = 1 := by
          unfold count
          omega
        rw [if_neg (not_not_intro hone)]
        have hzero : s.count f - 1 = 0 := by omega
        rw [hzero] at hclosed
        exact keeps_ok (h.unlink_last hF hfd rfl (hclosed _ hk fun _ => id) hcount (hp.uses f)
          (fun g => iff_of_false id (hp.uses g)) hp.flight rfl)
      · have hcount : 1 < s.count f := by
          unfold count
          omega
        rw [if_pos hone, ← resume_setTask]
        exact keeps_ok (inv_resume (h.unlink_shared hF hfd rfl (hclosed .user trivial fun _ => id) hcount
          (fun g => iff_of_false id (hp.uses g)) hp.flight.symm) task_setTask rfl hk)

theorem keeps_dropped (h : s.Inv) (hF : s.task t = some F) {o : Option I} {k : Cont}
    (hp : F.phase = .dropping o k) : Keeps (s.dropped t F o k) := by
  have hok := (h.tasks t F hF).2
  have hk : k.Ok F.filp := by simpa [hp, Phase.Ok] using hok.phase
  have hflight : F.phase.flight = o := by simp [hp, Phase.flight]
  obtain ⟨s', hput, -, -, hinv⟩ := h.iput hF { F with phase := .user }
    (hok.move rfl (fun _ hk => hk) (fun _ hm => hm.elim) trivial) rfl
    (fun g => by simp [hp, Phase.Uses]) rfl
  rw [hflight] at hput
  unfold FileSys.dropped
  rw [hput]
  show Keeps (.ok (s'.resume t F 0 k))
  rw [← resume_setTask]
  exact keeps_ok (inv_resume hinv task_setTask rfl hk)

theorem inv_sysFcntl (h : s.Inv) (hF : s.task t = some F) (hp : F.phase = .user) {cmd : Nat}
    {arg : BitVec 32} : (s.sysFcntl t F fd cmd arg).2.Inv := by
  have hok := (h.tasks t F hF).2
  unfold sysFcntl
  split
  · exact h
  · rename_i f hfd
    have hf : F.filp fd = some f := by
      by_cases hlt : fd < nrOpen
      · rwa [if_pos hlt] at hfd
      · rw [if_neg hlt] at hfd
        cases hfd
    split
    · exact inv_dupfd h hF hp
    · exact h
    · refine h.setTask hF _ ?_ ?_ ?_ ?_
      · by_cases hset : arg &&& 1 ≠ 0
        · rw [if_pos hset]
          refine ⟨hok.bound, fun k hk => ?_, hok.phase⟩
          by_cases hkfd : k = fd
          · subst hkfd
            exact ⟨by simp [hf], by simp [hp, Phase.Makes]⟩
          · refine hok.cloexec k ?_
            simp only [BitVec.getLsbD_or, BitVec.getLsbD_shiftLeft, Bool.or_eq_true] at hk
            rcases hk with hk | hk
            · exact hk
            · simp at hk
              omega
        · rw [if_neg hset]
          exact hok.move rfl (fun k hk => (clearExec_bit.mp hk).1) (fun _ hm => hm) hok.phase
      all_goals
        by_cases hset : arg &&& 1 ≠ 0
        · rw [if_pos hset]
          first | done | rfl | exact fun _ => Iff.rfl
        · rw [if_neg hset]
          first | done | rfl | exact fun _ => Iff.rfl
    · exact h
    · -- only `f_flags` changes
      have hcount : ∀ g, (s.setFile f fun x => { x with
          fFlags := (x.fFlags &&& ~~~oAppendNonblock) ||| (arg.setWidth 16 &&& oAppendNonblock) }).count g
            = s.count g := by
        intro g
        by_cases hg : g = f
        · simp [count, setFile, hg]
        · simp [count, setFile, hg]
      have hheld : (s.setFile f fun x => { x with
          fFlags := (x.fFlags &&& ~~~oAppendNonblock) ||| (arg.setWidth 16 &&& oAppendNonblock) }).held
            = s.held := by
        funext g
        refine held_same (by rw [hcount]) (fun _ => ?_) Iff.rfl
        by_cases hg : g = f
        · simp [setFile, hg]
        · simp [setFile, hg]
      refine ⟨fun g => (hcount g).trans (h.counts g), fun u H hH => ?_, fun i => ?_, h.pipes⟩
      · obtain ⟨hlt, hok'⟩ := h.tasks u H hH
        exact ⟨hlt, hok'.bound, hok'.cloexec, hok'.phase.congr fun g _ => hcount g⟩
      · rw [hheld]
        exact h.inodes i
    · exact h

/-! #### `sys_pipe` -/

theorem inv_sysPipe (h : s.Inv) (hF : s.task t = some F) (hp : F.phase = .user) :
    (s.sysPipe t F).2.Inv := by
  have hok := (h.tasks t F hF).2
  have hidle : F.phase.Idle := by
    rw [hp]
    trivial
  unfold sysPipe
  split
  · rename_i f0 f1 fs fd0 fd1 fds hfiles hfree
    obtain ⟨hf0, hzero0⟩ := freeFiles_cons hfiles
    obtain ⟨hf1, hzero1, hf⟩ := freeFiles_cons_cons hfiles
    obtain ⟨hfd0, hnone0⟩ := free_cons hfree
    obtain ⟨hfd1, hnone1, hfd⟩ := free_cons_cons hfree
    -- one descriptor after the other, as if it were the one that `sys_open` makes
    have hbit : ∀ k, F.closeOnExec.getLsbD k = true → k ≠ fd0 ∧ k ≠ fd1 := by
      intro k hk
      have hopen := (hok.cloexec k hk).1
      constructor
      · rintro rfl
        exact hopen hnone0
      · rintro rfl
        exact hopen hnone1
    have hlink : ((s.useFile f0).setTask t
        { F.setFilp fd0 (some f0) with phase := .opening fd0 f0 0 }).Inv := by
      refine h.link hF _ hfd0 hnone0 hf0 rfl (hok.update rfl ?_ (fun k hk => ⟨hk, (hbit k hk).1⟩)
        (fun k hk hm => absurd hm.symm hk) ⟨Function.update_self .., ?_⟩) hidle.flight.symm
        (.inr ⟨hzero0, fun g => ?_⟩)
      · rintro g ⟨⟩
        exact ⟨hfd0, hf0⟩
      · simp [hzero0]
      · simp [hp, Phase.Uses]
    have hok' := (hlink.tasks t _ task_setTask).2
    have heq : ((s.useFile f0).useFile f1).setTask t
        { (F.setFilp fd0 (some f0)).setFilp fd1 (some f1) with phase := .piping fd0 fd1 f0 f1 } =
        (((s.useFile f0).setTask t
          { F.setFilp fd0 (some f0) with phase := .opening fd0 f0 0 }).useFile f1).setTask t
          { (F.setFilp fd0 (some f0)).setFilp fd1 (some f1) with phase := .piping fd0 fd1 f0 f1 } := by
      simp [useFile, setCount, setFile, FileSys.setTask]
    show FileSys.Inv (((s.useFile f0).useFile f1).setTask t _)
    rw [heq]
    refine hlink.link task_setTask _ hfd1 ?_ hf1 rfl (hok'.update rfl ?_
      (fun k hk => ⟨hk, (hbit k hk).2⟩) (fun k hk hm => hm.resolve_right (Ne.symm hk)) ?_) rfl
      (.inr ⟨?_, fun g => Iff.rfl⟩)
    · show Function.update F.filp fd0 (some f0) fd1 = none
      rw [Function.update_of_ne (Ne.symm hfd)]
      exact hnone1
    · rintro g ⟨⟩
      exact ⟨hfd1, hf1⟩
    · refine ⟨?_, Function.update_self .., hfd, hf, ?_, ?_⟩
      · show Function.update (Function.update F.filp fd0 (some f0)) fd1 (some f1) fd0 = some f0
        rw [Function.update_of_ne hfd, Function.update_self]
      · simp [hzero0, hf]
      · simp [hzero1, Ne.symm hf]
    · simp [hzero1, Ne.symm hf]
  · exact h

/-- Without an inode both descriptors are closed again. -/
theorem inv_pipeGot_none (h : s.Inv) (hF : s.task t = some F) {fd0 fd1 f0 f1 : Nat}
    (hp : F.phase = .piping fd0 fd1 f0 f1) : (s.pipeGot t F fd0 fd1 f0 f1 none).2.Inv := by
  have hok := (h.tasks t F hF).2
  obtain ⟨hfd0, hfd1, hfd, hf, -, hone1⟩ : F.filp fd0 = some f0 ∧ F.filp fd1 = some f1 ∧
      fd0 ≠ fd1 ∧ f0 ≠ f1 ∧ s.count f0 = 1 ∧ s.count f1 = 1 := by
    simpa [hp, Phase.Ok] using hok.phase
  have huses0 : F.phase.Uses f0 := by simp [hp, Phase.Uses]
  have hbit : ∀ k, F.closeOnExec.getLsbD k = true → k ≠ fd0 ∧ k ≠ fd1 := by
    intro k hk
    have hmake := (hok.cloexec k hk).2
    rw [hp] at hmake
    exact ⟨fun heq => hmake (.inl heq.symm), fun heq => hmake (.inr heq.symm)⟩
  have hstep : ((s.setCount f0 0).setTask t
      { F.setFilp fd0 none with phase := .opening fd1 f1 0 }).Inv := by
    refine h.unlink_reserved hF hfd0 rfl (hok.update rfl (by simp)
      (fun k hk => ⟨hk, (hbit k hk).1⟩) (fun k _ hm => ?_) ⟨?_, ?_⟩) huses0 (fun g hg => ?_) ?_
    · rw [hp]
      exact .inr hm
    · show Function.update F.filp fd0 none fd1 = some f1
      rw [Function.update_of_ne (Ne.symm hfd)]
      exact hfd1
    · simp [hone1, Ne.symm hf]
    · simp [hp, Phase.Uses, Ne.symm hg]
    · simp [hp, Phase.flight]
  have heq : (s.pipeGot t F fd0 fd1 f0 f1 none).2 =
      ((s.setCount f0 0).setTask t { F.setFilp fd0 none with phase := .opening fd1 f1 0 }).giveUp t
        { F.setFilp fd0 none with phase := .opening fd1 f1 0 } fd1 f1 := by
    simp [pipeGot, FileSys.giveUp, setCount, setFile, FileSys.setTask, Files.setFilp]
  rw [heq]
  exact hstep.giveUp task_setTask rfl

/-- The file of the first descriptor gets the inode. -/
def readEnd (s : FileSys I) (t : Nat) (F : Files I) (fd1 f0 f1 : Nat) (i : I) : FileSys I :=
  ({ s with iCount := Function.update s.iCount i 1 }.setFile f0 fun g =>
    { g with fInode := some i, fPos := 0, fMode := 1 }).setTask t { F with phase := .opening fd1 f1 0 }

theorem Inv.readEnd (h : s.Inv) (hF : s.task t = some F) {fd0 fd1 f0 f1 : Nat}
    (hp : F.phase = .piping fd0 fd1 f0 f1) {i : I} (hzero : s.iCount i = 0) (hothers : s.others i = 0)
    (hpipe : s.iPipe i = false) : (s.readEnd t F fd1 f0 f1 i).Inv := by
  have hok := (h.tasks t F hF).2
  obtain ⟨-, hfd1, -, hf, hone0, hone1⟩ : F.filp fd0 = some f0 ∧ F.filp fd1 = some f1 ∧
      fd0 ≠ fd1 ∧ f0 ≠ f1 ∧ s.count f0 = 1 ∧ s.count f1 = 1 := by
    simpa [hp, Phase.Ok] using hok.phase
  have huses0 : F.phase.Uses f0 := by simp [hp, Phase.Uses]
  unfold FileSys.readEnd
  refine h.establish hF huses0 { F with phase := .opening fd1 f1 0 } i rfl (fun g hg => ?_) ?_ ?_
    (hok.move rfl (fun _ hk => hk) (fun k hm => ?_) ⟨hfd1, ?_⟩) rfl (fun g => ?_) (fun j => ?_) fun j hj => ?_
  · simp [FileSys.setTask, setFile, hg]
  · simpa [FileSys.setTask, setFile, FileSys.count] using hone0
  · simp [FileSys.setTask, setFile]
  · rw [hp]
    exact .inr hm
  · simpa [setFile, FileSys.count, Ne.symm hf] using hone1
  · simp only [hp, Phase.Uses]
    grind
  · by_cases hij : i = j
    · subst hij
      simp [FileSys.setTask, setFile, hp, Phase.flight, hzero]
      omega
    · simp [FileSys.setTask, setFile, hp, Phase.flight, hij, Ne.symm hij]
  · have hij : j ≠ i := by
      rintro rfl
      have hj' : s.iPipe j = true := hj
      rw [hpipe] at hj'
      cases hj'
    simpa [FileSys.setTask, setFile, hij] using h.pipes j hj

/-- One end after the other, each with one of the two references. -/
theorem inv_pipeGot_some (h : s.Inv) (hF : s.task t = some F) {fd0 fd1 f0 f1 : Nat}
    (hp : F.phase = .piping fd0 fd1 f0 f1) {i : I} (hzero : s.iCount i = 0) :
    (s.pipeGot t F fd0 fd1 f0 f1 (some i)).2.Inv := by
  have hok := (h.tasks t F hF).2
  obtain ⟨-, -, -, hf, -, hone1⟩ : F.filp fd0 = some f0 ∧ F.filp fd1 = some f1 ∧
      fd0 ≠ fd1 ∧ f0 ≠ f1 ∧ s.count f0 = 1 ∧ s.count f1 = 1 := by
    simpa [hp, Phase.Ok] using hok.phase
  have hothers : s.others i = 0 := by
    have hcount := h.inodes i
    omega
  have hpipe : s.iPipe i = false := by
    cases hpipe : s.iPipe i with
    | false => rfl
    | true =>
      have hpos := (h.pipes i hpipe).2
      omega
  have hread := h.readEnd hF hp hzero hothers hpipe
  have hok' := (hread.tasks t _ task_setTask).2
  refine hread.establish task_setTask (f := f1) rfl { F with phase := .user } i ?_
    (fun g hg => ?_) ?_ ?_ (hok'.move rfl (fun _ hk => hk) (fun _ hm => hm.elim) trivial) rfl
    (fun g => ?_) (fun j => ?_) fun j hj => ?_
  · simp [pipeGot, FileSys.readEnd, FileSys.setTask, setFile]
  · simp [pipeGot, FileSys.readEnd, FileSys.setTask, setFile, hg]
  · simpa [pipeGot, FileSys.setTask, setFile, FileSys.count, Ne.symm hf] using hone1
  · simp [pipeGot, FileSys.setTask, setFile]
  · simp only [Phase.Uses]
    grind
  · by_cases hij : i = j
    · subst hij
      simp [pipeGot, FileSys.readEnd, FileSys.setTask, setFile, Phase.flight]
      omega
    · simp [pipeGot, FileSys.readEnd, FileSys.setTask, setFile, Phase.flight, hij, Ne.symm hij]
  · by_cases hij : j = i
    · subst hij
      simp [pipeGot, FileSys.setTask, setFile, hothers]
    · have hj' : s.iPipe j = true := by
        simpa [pipeGot, FileSys.setTask, setFile, hij] using hj
      simpa [pipeGot, FileSys.setTask, setFile, hij] using h.pipes j hj'

theorem inv_pipeGot (h : s.Inv) (hF : s.task t = some F) {fd0 fd1 f0 f1 : Nat}
    (hp : F.phase = .piping fd0 fd1 f0 f1) {o : Option I} (ho : ∀ i, o = some i → s.iCount i = 0) :
    (s.pipeGot t F fd0 fd1 f0 f1 o).2.Inv := by
  cases o with
  | none => exact inv_pipeGot_none h hF hp
  | some i => exact inv_pipeGot_some h hF hp (ho i rfl)

/-! #### Tasks -/

omit [DecidableEq I] in
theorem shareFiles_succ {n : Nat} : shareFiles F (n + 1) s =
    match F.filp n with
    | none => shareFiles F n s
    | some f => (shareFiles F n s).useFile f := by
  cases hf : F.filp n with
  | none => simp [shareFiles, List.range_succ, hf]
  | some f => simp [shareFiles, List.range_succ, hf]

omit [DecidableEq I] in
theorem shareFiles_task {n : Nat} : (shareFiles F n s).task = s.task := by
  induction n with
  | zero => rfl
  | succ n ih =>
    rw [shareFiles_succ]
    cases F.filp n with
    | none => exact ih
    | some f => exact ih

/-- The descriptors of the child come one after the other. -/
theorem inv_shareFiles (h : s.Inv) (hF : s.task t = some F) (hp : F.phase.Idle) {nr : Nat}
    (hnr : nr < nrTasks) (hfree : s.task nr = none) {n : Nat} (hn : n ≤ nrOpen) :
    ((shareFiles F n s).setTask nr { F with
      filp := fun fd => if fd < n then F.filp fd else none, closeOnExec := 0, leader := false,
      phase := .user }).Inv := by
  have hne : t ≠ nr := by
    rintro rfl
    rw [hfree] at hF
    cases hF
  induction n with
  | zero =>
    refine h.blank hnr (fun G hG => ?_) fun G hG => ?_
    · rw [hfree] at hG
      cases hG
    · obtain rfl := Option.some.inj hG
      exact ⟨fun fd => by simp, rfl, rfl⟩
  | succ n ih =>
    have ih := ih (by omega)
    have hfilp : (fun fd => if fd < n + 1 then F.filp fd else none) =
        Function.update (fun fd => if fd < n then F.filp fd else none) n (F.filp n) :=
      update_of_same (if_pos (Nat.lt_succ_self n)) fun k hk => by
        by_cases hlt : k < n
        · rw [if_pos hlt, if_pos (by omega)]
        · rw [if_neg hlt, if_neg (by omega)]
    rw [shareFiles_succ]
    cases hfd : F.filp n with
    | none =>
      have hsame : (fun fd => if fd < n then F.filp fd else none) =
          Function.update (fun fd => if fd < n then F.filp fd else none) n none :=
        update_of_same (if_neg (Nat.lt_irrefl n)) fun _ _ => rfl
      rw [hfilp, hfd, ← hsame]
      exact ih
    | some f =>
      have hf := ((h.tasks t F hF).2.bound n f hfd).2
      have hparent : ((shareFiles F n s).setTask nr { F with
          filp := fun fd => if fd < n then F.filp fd else none, closeOnExec := 0, leader := false,
          phase := .user }).task t = some F := by
        show Function.update (shareFiles F n s).task nr _ t = some F
        rw [Function.update_of_ne hne, shareFiles_task, hF]
      have hlink := ih.link task_setTask { F with
        filp := fun fd => if fd < n + 1 then F.filp fd else none, closeOnExec := 0, leader := false,
        phase := .user } (show n < nrOpen by omega) (if_neg (Nat.lt_irrefl n)) hf (hfilp.trans (by rw [hfd])) ?_ rfl
        (.inl ⟨ih.count_pos hparent hfd, ?_, fun _ => Iff.rfl⟩)
      · have heq : ∀ A B : Files I, (((shareFiles F n s).setTask nr A).useFile f).setTask nr B =
            ((shareFiles F n s).useFile f).setTask nr B := by
          intro A B
          simp [useFile, setCount, setFile, FileSys.setTask]
        rw [heq] at hlink
        exact hlink
      · refine (ih.tasks nr _ task_setTask).2.update (hfilp.trans (by rw [hfd])) ?_ ?_
          (fun _ _ hm => hm.elim) trivial
        · rintro g ⟨⟩
          exact ⟨by omega, hf⟩
        · intro k hk
          simp at hk
      · intro hr
        exact hp.uses f (ih.reserved hparent hfd hr).1

theorem inv_copyProcess (h : s.Inv) (hF : s.task t = some F) (hp : F.phase.Idle) {nr : Nat}
    (hnr : nr < nrTasks) (hfree : s.task nr = none) {lastPid : Int} {memory : Bool} :
    (s.copyProcess nr lastPid F memory).2.Inv := by
  cases memory with
  | false => exact h
  | true =>
    have hok := (h.tasks t F hF).2
    have hshare := inv_shareFiles h hF hp hnr hfree (Nat.le_refl nrOpen)
    have hfilp : (fun fd => if fd < nrOpen then F.filp fd else none) = F.filp := by
      funext fd
      by_cases hlt : fd < nrOpen
      · exact if_pos hlt
      · rw [if_neg hlt]
        cases hfd : F.filp fd with
        | none => rfl
        | some f => exact absurd (hok.bound fd f hfd).1 hlt
    rw [hfilp] at hshare
    have hchild := hshare.setTask task_setTask
      { F with leader := false, phase := .user } ?_ rfl (fun _ => Iff.rfl) rfl
    · rw [setTask_setTask] at hchild
      exact hchild
    · exact ⟨hok.bound, fun k hk => ⟨(hok.cloexec k hk).1, id⟩, trivial⟩

/-- `do_exit` begins: also inside `open_namei`, if the reserved entry has no inode. -/
theorem inv_exit (h : s.Inv) (hF : s.task t = some F)
    (hp : F.phase = .user ∨ ∃ fd f flag, F.phase = .opening fd f flag ∧ (s.file f).fInode = none) :
    (s.setTask t { F with phase := .exiting 0 }).Inv := by
  have hok := (h.tasks t F hF).2
  rcases hp with hp | ⟨fd, f, flag, hp, hinode⟩
  · have hidle : F.phase.Idle := by
      rw [hp]
      trivial
    exact h.rest hF hidle trivial fun fd hlt => absurd hlt (Nat.not_lt_zero fd)
  · have huse : F.phase.Uses f := by simp [hp, Phase.Uses]
    have htask : (s.setTask t { F with phase := .exiting 0 }).task =
      Function.update s.task t (some { F with phase := .exiting 0 }) := rfl
    refine h.change (h.tasks t F hF).1 htask (fun g => ?_) (hok.move rfl (fun _ hk => hk)
      (fun _ hm => hm.elim) fun fd hlt => absurd hlt (Nat.not_lt_zero fd)) (fun _ _ _ _ _ _ => rfl)
      (fun i => ?_) h.pipes
    · rw [slot_same hF htask rfl]
      exact h.counts g
    · have hheld : (s.setTask t { F with phase := .exiting 0 }).held = s.held := by
        funext g
        by_cases hg : g = f
        · -- the entry is not reserved any more, and has no inode
          subst hg
          rw [held_none (.inr ⟨t, F, hF, huse⟩)]
          unfold held
          split
          · exact hinode
          · rfl
        · refine held_same Iff.rfl (fun _ => rfl) ?_
          rw [reserved_change htask, reserved_iff hF]
          simp [hp, Phase.Uses, Ne.symm hg]
      have hflight : (s.setTask t { F with phase := .exiting 0 }).flight = s.flight := by
        rw [flight_change htask]
        have hnone : s.flight t = none := by simp [flight_eq hF, hp, Phase.flight]
        show Function.update s.flight t none = s.flight
        rw [← hnone, Function.update_eq_self]
      rw [hheld, hflight]
      exact h.inodes i

theorem keeps_exitStep (h : s.Inv) (hF : s.task t = some F) (hp : F.phase = .exiting fd) :
    Keeps (s.exitStep t F fd) := by
  have hok := (h.tasks t F hF).2
  have hidle : F.phase.Idle := by
    rw [hp]
    trivial
  have hclosed : ∀ k < fd, F.filp k = none := by simpa [hp, Phase.Ok] using hok.phase
  unfold FileSys.exitStep
  by_cases hlt : nrOpen ≤ fd
  · rw [if_pos hlt]
    refine keeps_ok (h.rest hF hidle trivial fun k => ?_)
    cases hk : F.filp k with
    | none => rfl
    | some f =>
      have hbound := (hok.bound k f hk).1
      rw [hclosed k (by omega)] at hk
      cases hk
  · rw [if_neg hlt]
    cases hfd : F.filp fd with
    | none =>
      refine keeps_ok (h.rest hF hidle trivial fun k hk => ?_)
      by_cases hkfd : k = fd
      · rw [hkfd, hfd]
      · exact hclosed k (by omega)
    | some f =>
      refine keeps_sysClose h hF hidle fun k hk => ?_
      by_cases hkfd : k = fd
      · rw [hkfd, Function.update_self]
      · rw [Function.update_of_ne hkfd]
        exact hclosed k (by omega)

theorem inv_release (h : s.Inv) (hF : s.task t = some F) (hp : F.phase = .zombie) :
    { s with task := Function.update s.task t none }.Inv := by
  have hok := (h.tasks t F hF).2
  refine h.blank (h.tasks t F hF).1 (fun G hG => ?_) fun G hG => ?_
  · cases hF.symm.trans hG
    have hclosed : ∀ fd, F.filp fd = none := by simpa [hp, Phase.Ok] using hok.phase
    refine ⟨hclosed, fun f => ?_, ?_⟩
    · simp [hp, Phase.Uses]
    · simp [hp, Phase.flight]
  · cases hG

/-! #### The rest of the kernel -/

/-- The count of an inode and the references of others to it change together. -/
theorem Inv.inodes_update (h : s.Inv) {c o : Nat} (hco : c + s.others i = s.iCount i + o) (j : I) :
    Function.update s.iCount i c j = refs (Finset.range nrFile) s.held j + refs (Finset.range nrTasks) s.flight j +
      Function.update s.others i o j := by
  have hj := h.inodes j
  by_cases hij : j = i
  · subst hij
    rw [Function.update_self, Function.update_self]
    omega
  · rw [Function.update_of_ne hij, Function.update_of_ne hij]
    exact hj

theorem inv_get (h : s.Inv) (hpipe : s.iPipe i = false) : { s with
    iCount := Function.update s.iCount i (s.iCount i + 1)
    others := Function.update s.others i (s.others i + 1) }.Inv := by
  refine ⟨h.counts, fun t F hF => ?_, fun j => ?_, fun j hj => ?_⟩
  · obtain ⟨hlt, hok⟩ := h.tasks t F hF
    exact ⟨hlt, hok.bound, hok.cloexec, hok.phase⟩
  · exact h.inodes_update (c := s.iCount i + 1) (o := s.others i + 1) (by omega) j
  · have hij : j ≠ i := by
      rintro rfl
      have hj' : s.iPipe j = true := hj
      rw [hpipe] at hj'
      cases hj'
    simpa [hij] using h.pipes j hj

theorem keeps_put (h : s.Inv) (hpos : 0 < s.others i) :
    Lib.Post ((s.iput (some i)).map fun s =>
      { s with others := Function.update s.others i (s.others i - 1) }) Inv fun _ => False := by
  have hcount : 0 < s.iCount i := by
    rw [h.inodes i]
    omega
  have hput : s.iput (some i) = .ok { s with
      iCount := Function.update s.iCount i (s.iCount i - 1)
      iPipe := if s.iCount i = 1 then Function.update s.iPipe i false else s.iPipe } :=
    if_neg (by omega)
  rw [hput]
  refine .ret ⟨h.counts, fun t F hF => ?_, fun j => ?_, fun j hj => ?_⟩
  · obtain ⟨hlt, hok⟩ := h.tasks t F hF
    exact ⟨hlt, hok.bound, hok.cloexec, hok.phase⟩
  · exact h.inodes_update (c := s.iCount i - 1) (o := s.others i - 1) (by omega) j
  · have hpipe : s.iPipe j = true := by
      by_cases hone : s.iCount i = 1
      · by_cases hij : j = i
        · subst hij
          simp [hone] at hj
        · simpa [hone, hij] using hj
      · simpa [hone] using hj
    have hij : j ≠ i := by
      rintro rfl
      have hzero := (h.pipes j hpipe).1
      omega
    simpa [hij] using h.pipes j hpipe

end Calls

end FileSys

end Linux011.Fs
