import Mathlib.Data.Set.Basic
import Linux011.Lib.Potential
import Linux011.Path.Open
import Linux011.Exec.Execve

/-!
# User and group ids

The ids of the tasks and of the files: `sys_setreuid` and `sys_setregid` of `kernel/sys.c`, the ids that
`do_execve` gives to a program, and what a task may do to the mode and the ids of a file. A script is
executed as its interpreter is.

A task acts on files wherever they are; which of them it can reach is left open. The tasks that descend from
some first tasks are marked as `kin`.
-/

namespace Linux011.Exec

open Lib (Run)
open Fs (ePerm)
open Linux011.Path (eAcces MInode)

/-- The ids in `task_struct`, which are unsigned and have 16 bits. -/
structure Ids where
  uid : Nat
  euid : Nat
  suid : Nat
  gid : Nat
  egid : Nat
  sgid : Nat

/-- An `int` is stored as an id. -/
def short (n : Int) : Nat := (n % 2 ^ 16).toNat

theorem short_eq {n : Int} {c : Nat} (h : (c : Int) = n) (hc : c < 2 ^ 16) : short n = c := by
  subst h
  unfold short
  omega

namespace Ids

def suser (c : Ids) : Bool := c.euid == 0

/-- When it fails at the effective id, it takes back the new real one. -/
def sysSetreuid (c : Ids) (ruid euid : Int) : Int × Ids :=
  if 0 < ruid ∧ ¬ (c.euid = ruid ∨ c.uid = ruid ∨ c.suser = true) then (-ePerm, c)
  else if 0 < euid ∧ ¬ (c.uid = euid ∨ c.euid = euid ∨ c.suser = true) then (-ePerm, c)
  else
    (0, { c with
      uid := if 0 < ruid then short ruid else c.uid
      euid := if 0 < euid then short euid else c.euid })

def sysSetuid (c : Ids) (uid : Int) : Int × Ids := c.sysSetreuid uid uid

/-- The second half of `sys_setregid`. -/
def setEgid (c : Ids) (egid : Int) : Int × Ids :=
  if 0 < egid ∧ ¬ (c.gid = egid ∨ c.egid = egid ∨ c.sgid = egid ∨ c.suser = true) then (-ePerm, c)
  else (0, { c with egid := if 0 < egid then short egid else c.egid })

/-- When it fails at the effective id, it keeps the new real one. -/
def sysSetregid (c : Ids) (rgid egid : Int) : Int × Ids :=
  if 0 < rgid ∧ ¬ (c.gid = rgid ∨ c.suser = true) then (-ePerm, c)
  else ({ c with gid := if 0 < rgid then short rgid else c.gid } : Ids).setEgid egid

def sysSetgid (c : Ids) (gid : Int) : Int × Ids := c.sysSetregid gid gid

end Ids

/-! ## Files -/

/-- The mode and the ids of an inode. -/
structure FileIds where
  mode : Nat
  uid : Nat
  gid : Nat

namespace FileIds

def of (n : MInode) : FileIds := ⟨n.iMode, n.iUid, n.iGid⟩

/-- `sys_chmod`, past the look-up. -/
def chmod (c : Ids) (n : FileIds) (mode : Nat) : Int × FileIds :=
  if c.euid ≠ n.uid ∧ !c.suser then (-eAcces, n)
  else (0, { n with mode := mode &&& 0o7777 ||| n.mode.ldiff 0o7777 })

/-- `sys_chown`, past the look-up. -/
def chown (c : Ids) (n : FileIds) (uid gid : Nat) : Int × FileIds :=
  if !c.suser then (-eAcces, n) else (0, { n with uid := uid % 2 ^ 16, gid := gid % 2 ^ 8 })

/-- What `new_inode` gives to a file, with the mode that its caller sets. -/
def made (c : Ids) (mode : Nat) : FileIds := ⟨mode, c.euid, c.egid % 2 ^ 8⟩

/-- The mode of a file that `open_namei` or `sys_mkdir` makes, with the bits of its type. -/
def makeMode (type umask mode : Nat) : Nat := type ||| (mode &&& 0o777).ldiff umask

end FileIds

/-- The ids of the program that `do_execve` makes of a file. -/
def Ids.execute (c : Ids) (n : FileIds) : Except Int Ids :=
  if !Fs.isReg n.mode then .error (-eAcces)
  else
    let euid := if n.mode &&& 0o4000 ≠ 0 then n.uid else c.euid
    let egid := if n.mode &&& 0o2000 ≠ 0 then n.gid else c.egid
    let i :=
      if c.euid = n.uid then n.mode / 2 ^ 6
      else if c.egid = n.gid then n.mode / 2 ^ 3
      else n.mode
    if i &&& 1 = 0 ∧ ¬ (n.mode &&& 0o111 ≠ 0 ∧ c.suser) then .error (-eNoexec)
    else .ok { c with euid, egid }

theorem execute_ok {c c' : Ids} {n : FileIds} (hok : c.execute n = .ok c') :
    c' = { c with
      euid := if n.mode &&& 0o4000 ≠ 0 then n.uid else c.euid
      egid := if n.mode &&& 0o2000 ≠ 0 then n.gid else c.egid } := by
  have hlast {p : Prop} [Decidable p] {e : Int} {x y : Ids} (h : (if p then .error e else .ok x) = Except.ok y) :
      y = x := by
    split at h
    · cases h
    · cases h
      rfl
  unfold Ids.execute at hok
  split at hok
  · cases hok
  · exact hlast hok

/-- The task of the calls on files has the ids. -/
structure Ids.Of (c : Ids) (T : Path.Task) : Prop where
  euid : T.euid = c.euid
  egid : T.egid = c.egid

theorem Ids.Of.suser {c : Ids} {s : Path.State} (h : c.Of s.current) : s.suser = c.suser := by
  simp [Path.State.suser, Ids.suser, h.euid]

/-- `do_execve` checks the inode, and takes the ids from it, as `Ids.execute` does. -/
theorem checkInode_eq {c : Ids} {s : Path.State} (h : c.Of s.current) (i : Nat) :
    checkInode s i = (c.execute (.of (s.inode i))).map fun c' => (c'.euid, c'.egid) := by
  have hmap (p : Prop) [Decidable p] (x y : Except Int Ids) (f : Ids → Nat × Nat) :
      (if p then x else y).map f = if p then x.map f else y.map f := apply_ite (Except.map f) p x y
  simp only [checkInode, Ids.execute, h.euid, h.egid, h.suser, hmap]
  rfl

section

variable {fuel i : Nat} {filename : Path.Name} {m m₁ : Path.Machine}

theorem setInode_id (i : Nat) (m : Path.Machine) : Path.setInode i id m = .ok () m := by
  have hsame : Function.update m.state.inode i (m.state.inode i) = m.state.inode := Function.update_eq_self _ _
  show EStateM.Result.ok () { m with state := { m.state with inode := _ } } = _
  rw [id, hsame]

/-- A call on the file that was found: its inode is changed as `r` says, and given back. -/
def Alters (i : Nat) (m : Path.Machine) (call : EStateM.Result Path.Stop Path.Machine Int) (r : Int × FileIds) :
    Prop :=
  ∃ g : MInode → MInode, FileIds.of (g (m.state.inode i)) = r.2 ∧
    call = (do Path.setInode i g; Path.iput i; return r.1 : Path.Call Int) m

theorem sysChmod_found {c : Ids} (hfound : Path.namei fuel filename m = .ok (some i) m₁)
    (hids : c.Of m₁.state.current) (mode : Nat) :
    Alters i m₁ (Path.sysChmod fuel filename mode m) (FileIds.chmod c (.of (m₁.state.inode i)) mode) := by
  have hcall : Path.sysChmod fuel filename mode m =
      (if m₁.state.current.euid ≠ (m₁.state.inode i).iUid ∧ !m₁.state.suser then do
        Path.iput i
        return -eAcces
      else do
        Path.setInode i fun n => { n with iMode := mode &&& 0o7777 ||| n.iMode.ldiff 0o7777, iDirt := true }
        Path.iput i
        return 0 : Path.Call Int) m₁ := by
    simp only [Path.sysChmod, bind, EStateM.bind, hfound]
    rfl
  rw [hcall, hids.euid, hids.suser]
  by_cases howner : c.euid ≠ (m₁.state.inode i).iUid ∧ (!c.suser) = true
  · have hr : FileIds.chmod c (.of (m₁.state.inode i)) mode = (-eAcces, .of (m₁.state.inode i)) :=
      if_pos howner
    rw [if_pos howner, hr]
    refine ⟨id, rfl, ?_⟩
    simp only [bind, EStateM.bind, setInode_id]
  · have hr : FileIds.chmod c (.of (m₁.state.inode i)) mode = (0, ⟨_, _, _⟩) := if_neg howner
    rw [if_neg howner, hr]
    exact ⟨_, rfl, rfl⟩

theorem sysChown_found {c : Ids} (hfound : Path.namei fuel filename m = .ok (some i) m₁)
    (hids : c.Of m₁.state.current) (uid gid : Nat) :
    Alters i m₁ (Path.sysChown fuel filename uid gid m) (FileIds.chown c (.of (m₁.state.inode i)) uid gid) := by
  have hcall : Path.sysChown fuel filename uid gid m =
      (if !m₁.state.suser then do
        Path.iput i
        return -eAcces
      else do
        Path.setInode i fun n => { n with iUid := uid % 2 ^ 16, iGid := gid % 2 ^ 8, iDirt := true }
        Path.iput i
        return 0 : Path.Call Int) m₁ := by
    simp only [Path.sysChown, bind, EStateM.bind, hfound]
    rfl
  rw [hcall, hids.suser]
  by_cases hroot : (!c.suser) = true
  · have hr : FileIds.chown c (.of (m₁.state.inode i)) uid gid = (-eAcces, .of (m₁.state.inode i)) :=
      if_pos hroot
    rw [if_pos hroot, hr]
    refine ⟨id, rfl, ?_⟩
    simp only [bind, EStateM.bind, setInode_id]
  · rw [if_neg hroot, FileIds.chown, if_neg hroot]
    exact ⟨_, rfl, rfl⟩

end

/-! ## Runs -/

/-- What a task does that has to do with ids. -/
inductive IdCall where
  | setreuid (ruid euid : Int)
  | setregid (rgid egid : Int)
  | setuid (uid : Int)
  | setgid (gid : Int)
  | fork (child : Nat)
  | release (child : Nat)
  | exec (f : Nat)
  | make (f type umask mode : Nat)
  | mknod (f mode : Nat)
  | chmod (f mode : Nat)
  | chown (f uid gid : Nat)
  | remove (f : Nat)

structure Users where
  task : Nat → Option Ids
  file : Nat → Option FileIds
  kin : Nat → Bool

namespace Users

def setTask (s : Users) (t : Nat) (c : Ids) : Users := { s with task := Function.update s.task t (some c) }

def setFile (s : Users) (f : Nat) (n : FileIds) : Users := { s with file := Function.update s.file f (some n) }

/-- Task `t`, with the ids `c`, makes a call. -/
inductive Makes (s : Users) (t : Nat) (c : Ids) : IdCall → Users → Prop
  | setreuid {ruid euid : Int} : Makes s t c (.setreuid ruid euid) (s.setTask t (c.sysSetreuid ruid euid).2)
  | setregid {rgid egid : Int} : Makes s t c (.setregid rgid egid) (s.setTask t (c.sysSetregid rgid egid).2)
  | setuid {uid : Int} : Makes s t c (.setuid uid) (s.setTask t (c.sysSetuid uid).2)
  | setgid {gid : Int} : Makes s t c (.setgid gid) (s.setTask t (c.sysSetgid gid).2)
  | fork {child : Nat} (hfree : s.task child = none) :
      Makes s t c (.fork child) { s.setTask child c with kin := Function.update s.kin child (s.kin t) }
  | release {child : Nat} : Makes s t c (.release child) { s with task := Function.update s.task child none }
  | exec {f : Nat} {n : FileIds} {c' : Ids} (hfile : s.file f = some n) (hok : c.execute n = .ok c') :
      Makes s t c (.exec f) (s.setTask t c')
  | make {f type umask mode : Nat} (hfree : s.file f = none) :
      Makes s t c (.make f type umask mode) (s.setFile f (.made c (FileIds.makeMode type umask mode)))
  | mknod {f mode : Nat} (hfree : s.file f = none) (hsuser : c.suser = true) :
      Makes s t c (.mknod f mode) (s.setFile f (.made c (mode % 2 ^ 16)))
  | chmod {f mode : Nat} {n : FileIds} (hfile : s.file f = some n) :
      Makes s t c (.chmod f mode) (s.setFile f (n.chmod c mode).2)
  | chown {f uid gid : Nat} {n : FileIds} (hfile : s.file f = some n) :
      Makes s t c (.chown f uid gid) (s.setFile f (n.chown c uid gid).2)
  | remove {f : Nat} : Makes s t c (.remove f) { s with file := Function.update s.file f none }

/-- A call, with the task that makes it and the state that it finds. -/
inductive Goes (s : Users) : Users × Nat × IdCall → Users → Prop
  | call {t : Nat} {c : Ids} {call : IdCall} {s' : Users} (htask : s.task t = some c) (h : Makes s t c call s') :
      Goes s (s, t, call) s'

end Users

/-! ## Confinement -/

section

variable (W G : Set Nat)

/-- The task acts for users in `W` and groups in `G` only. A real id 0 is of no use to it. -/
structure Ids.Within (c : Ids) : Prop where
  uid : c.uid ∈ W ∨ c.uid = 0
  euid : c.euid ∈ W
  gid : c.gid ∈ G ∨ c.gid = 0
  egid : c.egid ∈ G
  sgid : c.sgid = 0

/-- The file gives nobody an id outside of `W` and `G`, and its owner, if in `W`, cannot make it do so. -/
structure FileIds.Trusted (n : FileIds) : Prop where
  setuid : n.mode &&& 0o4000 ≠ 0 → n.uid ∈ W
  setgid : n.mode &&& 0o2000 ≠ 0 → n.gid ∈ G
  owned : n.uid ∈ W → n.gid ∈ G

def Users.FilesTrusted (s : Users) : Prop := ∀ f n, s.file f = some n → n.Trusted W G

def Users.KinWithin (s : Users) : Prop := ∀ t c, s.kin t = true → s.task t = some c → c.Within W G

/-- A call of a task that is no kin leaves all files trusted. -/
def Users.Minds (e : Users × Nat × IdCall) : Prop :=
  e.1.kin e.2.1 = false → e.1.FilesTrusted W G → ∀ s', Users.Goes e.1 e s' → s'.FilesTrusted W G

/-- Ids of users and groups that are not root's, and that files can have. -/
structure Closed : Prop where
  users : ∀ u ∈ W, u ≠ 0 ∧ u < 2 ^ 16
  groups : ∀ g ∈ G, g < 2 ^ 16 ∧ g % 2 ^ 8 ∈ G

end

section

variable {W G : Set Nat} {c c' : Ids} {n : FileIds}

namespace Ids.Within

variable (hc : c.Within W G) (hW : Closed W G)

include hc hW

theorem not_suser : c.suser = false := by
  have hroot := (hW.users c.euid hc.euid).1
  simpa [Ids.suser] using hroot

/-- A new user id is one of the task's. -/
theorem short_mem {n : Int} (hn : 0 < n) (h : (c.euid : Int) = n ∨ (c.uid : Int) = n) : short n ∈ W := by
  rcases h with h | h
  · rw [short_eq h (hW.users _ hc.euid).2]
    exact hc.euid
  · rcases hc.uid with hu | hu
    · rw [short_eq h (hW.users _ hu).2]
      exact hu
    · omega

theorem sysSetreuid (ruid euid : Int) : (c.sysSetreuid ruid euid).2.Within W G := by
  unfold Ids.sysSetreuid
  simp only [hc.not_suser hW, Bool.false_eq_true, or_false]
  split
  · exact hc
  · rename_i hr
    split
    · exact hc
    · rename_i he
      refine { hc with uid := ?_, euid := ?_ }
      · show (if 0 < ruid then short ruid else c.uid) ∈ W ∨ _
        split
        · rename_i hpos
          exact .inl (hc.short_mem hW hpos (by tauto))
        · exact hc.uid
      · show (if 0 < euid then short euid else c.euid) ∈ W
        split
        · rename_i hpos
          exact hc.short_mem hW hpos (by tauto)
        · exact hc.euid

omit hc in
theorem group_lt {g : Nat} (hg : g ∈ G ∨ g = 0) : g < 2 ^ 16 := by
  rcases hg with hg | rfl
  · exact (hW.groups g hg).1
  · decide

theorem setEgid (egid : Int) : (c.setEgid egid).2.Within W G := by
  unfold Ids.setEgid
  simp only [hc.not_suser hW, Bool.false_eq_true, or_false]
  split
  · exact hc
  · rename_i he
    refine { hc with egid := ?_ }
    show (if 0 < egid then short egid else c.egid) ∈ G
    split
    · rename_i hpos
      have hold : (c.gid : Int) = egid ∨ (c.egid : Int) = egid ∨ (c.sgid : Int) = egid := by tauto
      rcases hold with h | h | h
      · rcases hc.gid with hg | hg
        · rw [short_eq h (hW.groups _ hg).1]
          exact hg
        · omega
      · rw [short_eq h (hW.groups _ hc.egid).1]
        exact hc.egid
      · have hs := hc.sgid
        omega
    · exact hc.egid

theorem sysSetregid (rgid egid : Int) : (c.sysSetregid rgid egid).2.Within W G := by
  unfold Ids.sysSetregid
  simp only [hc.not_suser hW, Bool.false_eq_true, or_false]
  split
  · exact hc
  · rename_i hr
    -- the new real id is the old one
    have hsame : (if 0 < rgid then short rgid else c.gid) = c.gid := by
      split
      · rename_i hpos
        exact short_eq (by tauto) (group_lt hW hc.gid)
      · rfl
    rw [hsame]
    exact hc.setEgid hW egid

omit hW in
/-- A program gets no id from a trusted file but those in `W` and `G`. -/
theorem execute (hn : n.Trusted W G) (hok : c.execute n = .ok c') : c'.Within W G := by
  rw [execute_ok hok]
  refine { hc with euid := ?_, egid := ?_ }
  · show (if n.mode &&& 0o4000 ≠ 0 then n.uid else c.euid) ∈ W
    split
    · rename_i hset
      exact hn.setuid hset
    · exact hc.euid
  · show (if n.mode &&& 0o2000 ≠ 0 then n.gid else c.egid) ∈ G
    split
    · rename_i hset
      exact hn.setgid hset
    · exact hc.egid

/-- What the task makes is its own. -/
theorem made (mode : Nat) : (FileIds.made c mode).Trusted W G where
  setuid _ := hc.euid
  setgid _ := (hW.groups _ hc.egid).2
  owned _ := (hW.groups _ hc.egid).2

theorem chmod (hn : n.Trusted W G) (mode : Nat) : (n.chmod c mode).2.Trusted W G := by
  have hroot := hc.not_suser hW
  by_cases howner : c.euid = n.uid
  · have huid : n.uid ∈ W := howner ▸ hc.euid
    unfold FileIds.chmod
    rw [if_neg (by simp [howner])]
    exact { setuid := fun _ => huid, setgid := fun _ => hn.owned huid, owned := hn.owned }
  · unfold FileIds.chmod
    rw [if_pos (by simp [howner, hroot])]
    exact hn

theorem chown (hn : n.Trusted W G) (uid gid : Nat) : (n.chown c uid gid).2.Trusted W G := by
  have hroot := hc.not_suser hW
  unfold FileIds.chown
  rw [if_pos (by simp [hroot])]
  exact hn

end Ids.Within

namespace Users

variable {s s' : Users} {t : Nat} {call : IdCall}

theorem setTask_within {c' : Ids} (hkin : s.KinWithin W G) (hc' : s.kin t = true → c'.Within W G) :
    (s.setTask t c').KinWithin W G := by
  intro u cu hu htask
  by_cases hut : u = t
  · subst hut
    have hcu : c' = cu := by simpa [setTask] using htask
    exact hcu ▸ hc' hu
  · have hold : s.task u = some cu := by simpa [setTask, hut] using htask
    exact hkin u cu hu hold

theorem setFile_trusted {f : Nat} (hfiles : s.FilesTrusted W G) (hn : n.Trusted W G) :
    (s.setFile f n).FilesTrusted W G := by
  intro g n' hg
  by_cases hgf : g = f
  · subst hgf
    have hnn : n = n' := by simpa [setFile] using hg
    exact hnn ▸ hn
  · exact hfiles g n' (by simpa [setFile, hgf] using hg)

theorem fork_within {child : Nat} (hkin : s.KinWithin W G) (htask : s.task t = some c) :
    ({ s.setTask child c with kin := Function.update s.kin child (s.kin t) } : Users).KinWithin W G := by
  intro u cu hu hcu
  by_cases huc : u = child
  · subst huc
    have hkt : s.kin t = true := by simpa using hu
    have heq : c = cu := by simpa [setTask] using hcu
    exact heq ▸ hkin t c hkt htask
  · exact hkin u cu (by simpa [huc] using hu) (by simpa [setTask, huc] using hcu)

theorem release_within {child : Nat} (hkin : s.KinWithin W G) :
    ({ s with task := Function.update s.task child none } : Users).KinWithin W G := by
  intro u cu hu hcu
  by_cases huc : u = child
  · simp [huc] at hcu
  · exact hkin u cu hu (by simpa [huc] using hcu)

theorem remove_trusted {f : Nat} (hfiles : s.FilesTrusted W G) :
    ({ s with file := Function.update s.file f none } : Users).FilesTrusted W G := by
  intro g n hg
  by_cases hgf : g = f
  · simp [hgf] at hg
  · exact hfiles g n (by simpa [hgf] using hg)

namespace Makes

/-- Whoever makes the call, the tasks of the kin keep to their ids. -/
theorem kinWithin (h : Makes s t c call s') (hW : Closed W G) (htask : s.task t = some c) (hkin : s.KinWithin W G)
    (hfiles : s.FilesTrusted W G) : s'.KinWithin W G := by
  cases h with
  | setreuid => exact setTask_within hkin fun hk => (hkin t c hk htask).sysSetreuid hW _ _
  | setregid => exact setTask_within hkin fun hk => (hkin t c hk htask).sysSetregid hW _ _
  | setuid => exact setTask_within hkin fun hk => (hkin t c hk htask).sysSetreuid hW _ _
  | setgid => exact setTask_within hkin fun hk => (hkin t c hk htask).sysSetregid hW _ _
  | fork => exact fork_within hkin htask
  | release => exact release_within hkin
  | exec hfile hok => exact setTask_within hkin fun hk => (hkin t c hk htask).execute (hfiles _ _ hfile) hok
  | make | mknod | chmod | chown | remove => exact hkin

/-- A task of the kin makes no file, and no change to one, that could not be trusted. -/
theorem filesTrusted (h : Makes s t c call s') (hW : Closed W G) (hc : c.Within W G)
    (hfiles : s.FilesTrusted W G) : s'.FilesTrusted W G := by
  cases h with
  | make | mknod => exact setFile_trusted hfiles (hc.made hW _)
  | chmod hfile => exact setFile_trusted hfiles (hc.chmod hW (hfiles _ _ hfile) _)
  | chown hfile => exact setFile_trusted hfiles (hc.chown hW (hfiles _ _ hfile) _ _)
  | remove => exact remove_trusted hfiles
  | setreuid | setregid | setuid | setgid | fork | release | exec => exact hfiles

end Makes

/-- Nobody of the kin acts for anybody else, and no file lets it. -/
structure Confined (W G : Set Nat) (s : Users) : Prop where
  kin : s.KinWithin W G
  files : s.FilesTrusted W G

theorem Goes.confined (hW : Closed W G) {e : Users × Nat × IdCall} (hminds : Minds W G e) (hs : s.Confined W G)
    (h : Goes s e s') : s'.Confined W G := by
  have hgoes := h
  cases h with
  | @call t c _ _ htask hmakes =>
    refine ⟨hmakes.kinWithin hW htask hs.kin hs.files, ?_⟩
    by_cases hk : s.kin t = true
    · exact hmakes.filesTrusted hW (hs.kin _ _ hk htask) hs.files
    · exact hminds (by simpa using hk) hs.files _ hgoes

end Users

/-- What a confined task may do with a file that belongs to nobody and no group of its own. -/
theorem Ids.Within.others_only (hc : c.Within W G) (hW : Closed W G) {P : Path.State} (hids : c.Of P.current)
    {i mask : Nat} (huid : (P.inode i).iUid ∉ W) (hgid : (P.inode i).iGid ∉ G)
    (hmay : P.permission i mask = true) : (P.inode i).iMode &&& mask &&& 0o7 = mask := by
  have hu : P.current.euid ≠ (P.inode i).iUid := fun h => huid (h ▸ hids.euid ▸ hc.euid)
  have hg : P.current.egid ≠ (P.inode i).iGid := fun h => hgid (h ▸ hids.egid ▸ hc.egid)
  have hroot : P.suser = false := hids.suser.trans (hc.not_suser hW)
  simp only [Path.State.permission, if_neg hu, if_neg hg, hroot, Bool.or_false] at hmay
  split at hmay
  · cases hmay
  · simpa using hmay

/-- Whatever the tasks do, those of the kin never act for users outside of `W` or groups outside of `G`: the
others only have to leave no file that makes them. They never pass for the super user, and of a file that
belongs to nobody and no group of theirs they get what everybody gets. -/
theorem users_confined {s s' : Users} {es : List (Users × Nat × IdCall)} (hW : Closed W G)
    (hrun : Run Users.Goes s es s') (hminds : ∀ e ∈ es, Users.Minds W G e) (hs : s.Confined W G) :
    s'.FilesTrusted W G ∧ ∀ t c, s'.kin t = true → s'.task t = some c →
      c.euid ∈ W ∧ c.egid ∈ G ∧ c.suser = false ∧ ∀ P : Path.State, c.Of P.current → ∀ i mask,
        (P.inode i).iUid ∉ W → (P.inode i).iGid ∉ G → P.permission i mask = true →
          (P.inode i).iMode &&& mask &&& 0o7 = mask := by
  have hend : s'.Confined W G :=
    hrun.inv_of (fun _ _ _ hm hc hst => hst.confined hW hm hc) hminds hs
  refine ⟨hend.files, fun t c hk htask => ?_⟩
  have hc := hend.kin t c hk htask
  exact ⟨hc.euid, hc.egid, hc.not_suser hW, fun P hids i mask hu hg hmay => hc.others_only hW hids hu hg hmay⟩

end

/-- A task of user 5 and group 5 executes a file that sets both ids, and then root gives itself up. -/
theorem users_confined_five :
    let root : Ids := ⟨0, 0, 0, 0, 0, 0⟩
    let user : Ids := ⟨5, 5, 5, 5, 5, 0⟩
    let start : Users :=
      { task := fun t => if t = 0 then some root else if t = 1 then some user else none
        file := fun f => if f = 7 then some ⟨0o106755, 5, 5⟩ else none
        kin := fun t => t == 1 }
    let mid := start.setTask 1 user
    let last := mid.setTask 0 (root.sysSetreuid 3 3).2
    Run Users.Goes start [(start, 1, .exec 7), (mid, 0, .setreuid 3 3)] last ∧ last.FilesTrusted {5} {5} := by
  intro root user start mid last
  have hexec : Users.Makes start 1 user (.exec 7) mid :=
    have hok : user.execute ⟨0o106755, 5, 5⟩ = .ok user := by simp [Ids.execute, Fs.isReg, user]
    .exec rfl hok
  have hset : Users.Makes mid 0 root (.setreuid 3 3) last := .setreuid
  have hrun : Run Users.Goes start [(start, 1, .exec 7), (mid, 0, .setreuid 3 3)] last :=
    Run.snoc (Run.snoc Run.nil (.call rfl hexec)) (.call rfl hset)
  have hW : Closed {5} {5} := ⟨by simp, by simp⟩
  have hkin : start.KinWithin {5} {5} := by
    intro t c hk htask
    have ht : t = 1 := by simpa [start] using hk
    subst ht
    have hc : user = c := by simpa [start] using htask
    subst hc
    exact ⟨.inl rfl, rfl, .inl rfl, rfl, rfl⟩
  have hfiles : start.FilesTrusted {5} {5} := by
    intro f n hf
    by_cases h7 : f = 7
    · have hn : (⟨0o106755, 5, 5⟩ : FileIds) = n := by simpa [start, h7] using hf
      subst hn
      exact ⟨fun _ => rfl, fun _ => rfl, fun _ => rfl⟩
    · simp [start, h7] at hf
  refine ⟨hrun, (users_confined hW hrun ?_ ⟨hkin, hfiles⟩).1⟩
  intro e he
  simp only [List.mem_cons, List.not_mem_nil, or_false] at he
  rcases he with rfl | rfl
  · intro hk
    cases hk
  · intro _ htrusted s' hgoes
    cases hgoes with
    | call _ hmakes =>
      cases hmakes
      exact htrusted

end Linux011.Exec
