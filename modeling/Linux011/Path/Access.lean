import Mathlib.Tactic.IntervalCases
import Linux011.Lib.Transfer
import Linux011.Path.Open

/-!
# access and open

`sys_access` selects the bits of a mode by the real ids, and `permission` by the effective ones. Where the ids are
the same, the two differ for the group of a file only: `sys_access` takes the bits of the owner there.

`sys_access` reads the owner of the inode when `iput` has given it back, and so an `iput` of an inode with links
must leave it alone.
-/

namespace Linux011.Path

open Linux011.Fs Linux011.Lib

/-- What `permission` reads off an inode, apart from its device. -/
structure Rights where
  mode : Nat
  uid : Nat
  gid : Nat
  nlinks : UInt8

def rights (n : MInode) : Rights := ⟨n.iMode, n.iUid, n.iGid, n.iNlinks⟩

/-- The process stays what it is, and the rights of the inodes too. Nothing is counted. -/
def steady (T : Task) (I : Nat → Rights) : Books Stop Machine Nat :=
  ⟨fun _ m => m.state.current = T ∧ ∀ j, rights (m.state.inode j) = I j, fun _ _ => True, 0⟩

section

variable {α β : Type} {T : Task} {I : Nat → Rights} {inp : Nat → Nat} {out : β → Nat → Nat}

theorem steady_look {g : State → α} {f : α → Call β} (h : ∀ a, Moves (steady T I) inp (f a) out) :
    Moves (steady T I) inp (look g >>= f) out :=
  Moves.read (g := fun m => g m.state) (fun _ => rfl) h

theorem steady_throw (e : Stop) : Moves (steady T I) inp (throw e : Call β) out := Moves.stop fun _ _ _ => trivial

theorem steady_setInode {i : Nat} {g : MInode → MInode} (h : ∀ n, rights (g n) = rights n) :
    Moves (steady T I) 0 (setInode i g) fun _ => 0 := by
  refine Moves.keep fun r m hm => ⟨hm.1, fun j => ?_⟩
  show rights (Function.update m.state.inode i (g (m.state.inode i)) j) = I j
  by_cases hj : j = i
  · rw [hj, Function.update_self, h]
    exact hm.2 i
  · rw [Function.update_of_ne hj]
    exact hm.2 j

theorem steady_setCache (dev : Nat) (c : Cache) : Moves (steady T I) 0 (setCache dev c) fun _ => 0 :=
  Moves.keep fun _ _ => id

theorem steady_onCache (dev : Nat) (x : Except Panic (α × Cache)) :
    Moves (steady T I) 0 (onCache dev x) fun _ => 0 := by
  cases x with
  | ok r => exact (steady_setCache dev r.2).bind fun _ => Moves.ret rfl
  | error text => exact steady_throw _

theorem steady_bread (dev block : Nat) : Moves (steady T I) 0 (bread dev block) fun _ => 0 :=
  steady_look fun _ => steady_onCache dev _

theorem steady_brelse (dev block : Nat) : Moves (steady T I) 0 (brelse dev block) fun _ => 0 :=
  Moves.bind (Moves.keep fun _ _ => id) fun _ => steady_look fun _ => steady_onCache dev _

theorem steady_write (dev block : Nat) (f : (Nat → UInt8) → Nat → UInt8) :
    Moves (steady T I) 0 (write dev block f) fun _ => 0 :=
  steady_look fun _ => steady_setCache dev _

theorem steady_waitOnInode (i : Nat) : Moves (steady T I) 0 (waitOnInode i) fun _ => 0 := by
  refine steady_look fun n => ?_
  split
  · exact steady_throw _
  · exact Moves.ret rfl

theorem steady_writeInode (i : Nat) : Moves (steady T I) 0 (writeInode i) fun _ => 0 := by
  have hlock : Moves (steady T I) 0 (lockInode i) fun _ => 0 :=
    (steady_waitOnInode i).bind fun _ => steady_setInode fun _ => rfl
  have hunlock : Moves (steady T I) 0 (unlockInode i) fun _ => 0 := steady_setInode fun _ => rfl
  refine hlock.bind fun _ => steady_look fun n => ?_
  split
  · exact hunlock
  · refine steady_look fun k => ?_
    cases k with
    | none => exact steady_throw _
    | some k =>
      refine steady_look fun sb => (steady_bread _ _).bind fun got => ?_
      split
      · refine (steady_write _ _ _).bind fun _ => Moves.bind (steady_setInode fun _ => rfl) fun _ => ?_
        exact (steady_brelse _ _).bind fun _ => hunlock
      · exact steady_throw _

theorem steady_syncDev (dev : Nat) : Moves (steady T I) 0 (syncDev dev) fun _ => 0 := by
  have hflush : Moves (steady T I) 0 (flushDev dev) fun _ => 0 := steady_look fun _ => steady_setCache dev _
  refine hflush.bind fun _ => Moves.bind (Moves.forM fun i _ => ?_) fun _ => hflush
  refine (steady_waitOnInode i).bind fun _ => steady_look fun n => ?_
  split
  · exact steady_writeInode i
  · exact Moves.ret rfl

theorem steady_dropCount (i : Nat) : Moves (steady T I) 0 (dropCount i) fun _ => 0 := steady_setInode fun _ => rfl

/-- An inode with links is not freed. -/
theorem steady_iputAgain {i : Nat} (hlinks : (I i).nlinks ≠ 0) (turns : Nat) :
    Moves (steady T I) 0 (iputAgain i turns) fun _ => 0 := by
  induction turns with
  | zero => exact steady_throw _
  | succ turns ih =>
    refine Spec.known (g := fun m => m.state.inode i) (fun _ => rfl) fun n => ?_
    split
    · exact (steady_dropCount i).spec
    · split
      · next hzero =>
        refine Spec.absurd fun r m hn hm => hlinks ?_
        rw [← hm.2 i, hn.2]
        exact hzero
      · split
        · exact ((steady_writeInode i).bind fun _ => (steady_waitOnInode i).bind fun _ => ih).spec
        · exact (steady_dropCount i).spec

theorem steady_iput {i : Nat} (hlinks : (I i).nlinks ≠ 0) : Moves (steady T I) 0 (iput i) fun _ => 0 := by
  refine (steady_waitOnInode i).bind fun _ => steady_look fun n => ?_
  split
  · exact steady_throw _
  · split
    · split
      · exact steady_setInode fun _ => rfl
      · exact steady_dropCount i
    · split
      · exact steady_dropCount i
      · split
        · exact (steady_syncDev _).bind fun _ => (steady_waitOnInode i).bind fun _ => steady_iputAgain hlinks 2
        · exact steady_iputAgain hlinks 2

end

/-- `iput` of an inode with links leaves the process and the rights of all inodes alone. -/
theorem iput_steady {i : Nat} {m m' : Machine} (hlinks : (m.state.inode i).iNlinks ≠ 0)
    (hok : iput i m = .ok () m') :
    m'.state.current = m.state.current ∧ ∀ j, rights (m'.state.inode j) = rights (m.state.inode j) := by
  have h := steady_iput (T := m.state.current) (I := fun j => rights (m.state.inode j)) hlinks
  have hm := h 0 (le_refl _) m trivial ⟨rfl, fun _ => rfl⟩
  rw [hok] at hm
  exact hm.2

/-! ## The bits of a mode -/

/-- The bits from bit `k` on have all of `mode`. -/
def Grants (bits k mode : Nat) : Prop := bits / 2 ^ k &&& mode &&& 0o7 = mode

instance (bits k mode : Nat) : Decidable (Grants bits k mode) := inferInstanceAs (Decidable (_ = _))

/-- `sys_access` drops the bits above the permissions before it shifts. -/
theorem masked_bits {bits k : Nat} (hk : k ≤ 6) (mode : Nat) :
    (bits &&& 0o777) / 2 ^ k &&& 0o7 &&& mode = mode ↔ Grants bits k mode := by
  have hmask : 0o777 / 2 ^ k &&& 0o7 = 0o7 := by
    interval_cases k <;> rfl
  have hsame : (bits &&& 0o777) / 2 ^ k &&& 0o7 &&& mode = bits / 2 ^ k &&& mode &&& 0o7 := by
    rw [Nat.and_div_two_pow, Nat.and_assoc (bits / 2 ^ k), hmask, Nat.and_assoc, Nat.and_assoc, Nat.and_comm 0o7]
  rw [Grants, hsame]

/-- Which bits `sys_access` looks at, by the real ids. -/
def accessShift (T : Task) (n : MInode) : Nat := if T.uid = n.iUid ∨ T.gid = n.iGid then 6 else 0

/-- Which bits `permission` looks at, by the effective ids. -/
def permissionShift (T : Task) (n : MInode) : Nat :=
  if T.euid = n.iUid then 6 else if T.egid = n.iGid then 3 else 0

theorem permission_iff {s : State} {i mode : Nat} (hlinks : (s.inode i).iNlinks ≠ 0) (hroot : s.current.euid ≠ 0) :
    s.permission i mode = true ↔ Grants (s.inode i).iMode (permissionShift s.current (s.inode i)) mode := by
  have hsuser : s.suser = false := by simpa [State.suser] using hroot
  unfold State.permission permissionShift Grants
  simp only [hlinks, and_false, if_false, hsuser, Bool.or_false, beq_iff_eq]
  split
  · rfl
  · split
    · rfl
    · rw [Nat.pow_zero, Nat.div_one]

/-- `sys_access`, after the look-up. -/
theorem sysAccess_iff {fuel i mode : Nat} {filename : Name} {m m₁ m₂ : Machine} {r : Int}
    (hfound : namei fuel filename m = .ok (some i) m₁) (hlinks : (m₁.state.inode i).iNlinks ≠ 0)
    (hroot : m₁.state.current.uid ≠ 0) (hok : sysAccess fuel filename mode m = .ok r m₂) :
    r = 0 ↔ Grants (m₁.state.inode i).iMode (accessShift m₁.state.current (m₁.state.inode i)) (mode &&& 0o7) := by
  obtain ⟨o, m', hname, hok⟩ := bind_eq_ok hok
  rw [hfound] at hname
  cases hname
  obtain ⟨n, m', hinode, hok⟩ := bind_eq_ok hok
  cases hinode
  obtain ⟨⟨⟩, m', hput, hok⟩ := bind_eq_ok hok
  obtain ⟨hcurrent, hrights⟩ := iput_steady hlinks hput
  have hi := hrights i
  have huid : (m'.state.inode i).iUid = (m₁.state.inode i).iUid := congrArg Rights.uid hi
  have hgid : (m'.state.inode i).iGid = (m₁.state.inode i).iGid := congrArg Rights.gid hi
  obtain ⟨s, m'', hlook, hok⟩ := bind_eq_ok hok
  cases hlook
  simp only [id, hcurrent, huid, hgid, hroot, false_and, if_false] at hok
  have hres : (if m₁.state.current.uid = (m₁.state.inode i).iUid ∨ m₁.state.current.gid = (m₁.state.inode i).iGid then
        ((m₁.state.inode i).iMode &&& 0o777) / 2 ^ 6 else (m₁.state.inode i).iMode &&& 0o777) &&& 0o7 &&&
          (mode &&& 0o7) = mode &&& 0o7 ↔
      Grants (m₁.state.inode i).iMode (accessShift m₁.state.current (m₁.state.inode i)) (mode &&& 0o7) := by
    unfold accessShift
    split
    · exact masked_bits (by decide) _
    · have hzero := @masked_bits (m₁.state.inode i).iMode 0 (Nat.zero_le 6) (mode &&& 0o7)
      rwa [Nat.pow_zero, Nat.div_one] at hzero
  by_cases hgrants : Grants (m₁.state.inode i).iMode (accessShift m₁.state.current (m₁.state.inode i)) (mode &&& 0o7)
  · rw [if_pos (hres.mpr hgrants)] at hok
    cases hok
    exact iff_of_true rfl hgrants
  · rw [if_neg (mt hres.mp hgrants)] at hok
    cases hok
    exact iff_of_false (by decide) hgrants

/-- Where the ids are the same, `access` and `open` agree unless the process has the group of the file but not its
owner, and the bits of the owner and of the group differ on what is asked. -/
theorem access_agrees {fuel i mode : Nat} {filename : Name} {m m₁ m₂ : Machine} {r : Int}
    (hfound : namei fuel filename m = .ok (some i) m₁) (hlinks : (m₁.state.inode i).iNlinks ≠ 0)
    (hroot : m₁.state.current.uid ≠ 0) (huid : m₁.state.current.euid = m₁.state.current.uid)
    (hgid : m₁.state.current.egid = m₁.state.current.gid) (hok : sysAccess fuel filename mode m = .ok r m₂) :
    (r = 0 ↔ m₁.state.permission i (mode &&& 0o7) = true) ↔
      (m₁.state.current.uid = (m₁.state.inode i).iUid ∨ m₁.state.current.gid ≠ (m₁.state.inode i).iGid ∨
        (Grants (m₁.state.inode i).iMode 6 (mode &&& 0o7) ↔ Grants (m₁.state.inode i).iMode 3 (mode &&& 0o7))) := by
  have haccess := sysAccess_iff hfound hlinks hroot hok
  have hpermission := @permission_iff m₁.state i (mode &&& 0o7) hlinks (by rw [huid]; exact hroot)
  rw [haccess, hpermission, accessShift, permissionShift, huid, hgid]
  by_cases howner : m₁.state.current.uid = (m₁.state.inode i).iUid
  · simp [howner]
  · by_cases hgroup : m₁.state.current.gid = (m₁.state.inode i).iGid
    · simp [howner, hgroup]
    · simp [howner, hgroup]

/-- A root directory with the mode `rwx--x---`, and a process with its group that does not own it. -/
def groupRoot : State where
  cache := fun _ => ⟨fun _ => none, fun _ _ => 0, fun _ => true, fun _ _ => 0⟩
  superBlock := fun _ => ⟨⟨64, 100, 1, 1, 5⟩, 0x301, none, fun _ => true, fun _ => true⟩
  inode := fun i =>
    if i = 0 then { MInode.zero with
      iMode := 0o40710, iUid := 1, iGid := 5, iNlinks := 2, iCount := 2, iSize := 32, iDev := 0x301, iNum := 1
      iZone := fun k => if k = 0 then 5 else 0 }
    else MInode.zero
  lastInode := 0
  file := fun _ => ⟨0, 0, 0, none, 0⟩
  current := ⟨some 0, some 0, 3, 3, 5, 5, 0, false, -1, 0, fun _ => none, 0⟩
  ttyPgrp := fun _ => 0
  rootDev := 0x301
  now := 0
  floppyChange := fun _ => false

/-- `/` -/
theorem namei_groupRoot : ∃ m₁, namei 1 [47] ⟨groupRoot, []⟩ = .ok (some 0) m₁ ∧
    (m₁.state.inode 0).iNlinks ≠ 0 ∧ m₁.state.current = groupRoot.current ∧
    (m₁.state.inode 0).iMode = 0o40710 ∧ m₁.state.permission 0 4 = false :=
  ⟨_, rfl, by decide, rfl, rfl, by decide⟩

theorem access_agrees_groupRoot : ∃ (r : Int) (m₁ m₂ : Machine),
    sysAccess 1 [47] 1 ⟨groupRoot, []⟩ = .ok r m₂ ∧ (r = 0 ↔ m₁.state.permission 0 (1 &&& 0o7) = true) := by
  obtain ⟨m₁, hfound, hlinks, hcurrent, hmode, -⟩ := namei_groupRoot
  have hok : sysAccess 1 [47] 1 ⟨groupRoot, []⟩ = .ok 0 _ := rfl
  have hroot : m₁.state.current.uid ≠ 0 := by
    rw [hcurrent]
    decide
  refine ⟨0, m₁, _, hok, ?_⟩
  apply (access_agrees hfound hlinks hroot (by rw [hcurrent]; rfl) (by rw [hcurrent]; rfl) hok).mpr
  rw [hmode]
  exact Or.inr (Or.inr (by decide))

/-- `access("/", R_OK)` allows what `open` refuses. -/
theorem access_allows_group : ∃ (m₁ m₂ : Machine), namei 1 [47] ⟨groupRoot, []⟩ = .ok (some 0) m₁ ∧
    sysAccess 1 [47] 4 ⟨groupRoot, []⟩ = .ok 0 m₂ ∧ (m₁.state.inode 0).iNlinks ≠ 0 ∧
    m₁.state.current.uid = m₁.state.current.euid ∧ m₁.state.current.gid = m₁.state.current.egid ∧
    m₁.state.current.uid ≠ 0 ∧ m₁.state.permission 0 (4 &&& 0o7) = false := by
  obtain ⟨m₁, hfound, hlinks, hcurrent, -, hrefused⟩ := namei_groupRoot
  refine ⟨m₁, _, hfound, rfl, hlinks, ?_, ?_, ?_, hrefused⟩
  · rw [hcurrent]
    rfl
  · rw [hcurrent]
    rfl
  · rw [hcurrent]
    decide

end Linux011.Path
