import Linux011.Lib.RefCount
import Linux011.Path.LinkRefs

/-!
# References of the path calls

Of the calls in `fs/open.c` and `fs/stat.c` only three keep a reference when they return: `sys_chdir` and
`sys_chroot` exchange one, and `sys_open` has one in the file it opened. What every path call does to
`i_count` follows: it goes with the references.
-/

namespace Linux011.Path

open Linux011.Fs Linux011.Lib

variable {K : Log → (Key → Nat) → (Key → Nat) → Prop} {floor : Ref → Nat} {T : Task}
  {F : Nat → File Nat}

/-! ## Calls that keep nothing -/

section

variable (W : Watch K floor) (fuel : Nat)

include W

theorem moves_sysUtime (filename : Name) (times : Option (Nat × Nat)) :
    Moves (ledger K floor T F) 0 (sysUtime fuel filename times) fun _ => 0 := by
  refine (moves_namei W.tally fuel filename).bind fun o => ?_
  cases o with
  | none => exact Moves.ret rfl
  | some i =>
    refine moves_look fun now => skip_setInode (fun _ => rfl) fun _ => ?_
    exact moves_leave W.tally i rfl (by rfl)

theorem moves_sysAccess (filename : Name) (mode : Nat) :
    Moves (ledger K floor T F) 0 (sysAccess fuel filename mode) fun _ => 0 := by
  refine (moves_namei W.tally fuel filename).bind fun o => ?_
  cases o with
  | none => exact Moves.ret rfl
  | some i =>
    refine moves_look fun n => (moves_iput W.tally i).bind fun _ => moves_look fun s => ?_
    extract_lets n' res
    generalize res = res
    split
    · exact Moves.ret rfl
    · split
      · exact Moves.ret rfl
      · exact Moves.ret rfl

theorem moves_sysChmod (filename : Name) (mode : Nat) :
    Moves (ledger K floor T F) 0 (sysChmod fuel filename mode) fun _ => 0 := by
  refine (moves_namei W.tally fuel filename).bind fun o => ?_
  cases o with
  | none => exact Moves.ret rfl
  | some i =>
    refine moves_look fun s => ?_
    split
    · exact moves_leave W.tally i rfl (by rfl)
    · exact skip_setInode (fun _ => rfl) fun _ => moves_leave W.tally i rfl (by rfl)

theorem moves_sysChown (filename : Name) (uid gid : Nat) :
    Moves (ledger K floor T F) 0 (sysChown fuel filename uid gid) fun _ => 0 := by
  refine (moves_namei W.tally fuel filename).bind fun o => ?_
  cases o with
  | none => exact Moves.ret rfl
  | some i =>
    refine moves_look fun su => ?_
    split
    · exact moves_leave W.tally i rfl (by rfl)
    · exact skip_setInode (fun _ => rfl) fun _ => moves_leave W.tally i rfl (by rfl)

theorem moves_sysStat (filename : Name) :
    Moves (ledger K floor T F) 0 (sysStat fuel filename) fun _ => 0 := by
  refine (moves_namei W.tally fuel filename).bind fun o => ?_
  cases o with
  | none => exact Moves.ret rfl
  | some i => exact moves_look fun n => moves_leave W.tally i rfl (by rfl)

end

/-! ## The references of the process -/

/-- The inode of a slot of the file table that is in use. -/
def held (F : Nat → File Nat) (f : Nat) : Option Nat := if (F f).fCount = 0 then none else (F f).fInode

/-- The references to an inode that a process and the open files have. -/
def refsOf (T : Task) (F : Nat → File Nat) (i : Nat) : Nat :=
  (if T.root = some i then 1 else 0) + (if T.pwd = some i then 1 else 0) +
    Lib.refs (Finset.range nrFile) (held F) i

def State.refs (s : State) : Nat → Nat := refsOf s.current s.file

/-- The references to inodes that there are in the beginning. -/
def counted (s : State) : Ref → Nat
  | .inode i => (s.inode i).iCount
  | .buffer _ _ => 0

/-- The process has a root and a working directory, with references to them. -/
def State.Ready (s : State) : Prop :=
  (∃ root, s.current.root = some root ∧ (s.inode root).iCount ≠ 0) ∧
    ∃ pwd, s.current.pwd = some pwd ∧ (s.inode pwd).iCount ≠ 0

/-- Nothing is asked of the buffers. -/
def noBuffers (_ : Log) (_ _ : Key → Nat) : Prop := True

theorem watch_noBuffers : Watch noBuffers 0 where
  gain := fun _ _ _ _ _ => trivial
  loss := fun _ _ _ _ _ _ _ _ => trivial
  turn := fun _ _ _ _ _ _ _ => trivial
  leak := fun _ _ _ _ _ _ _ _ => trivial
  header := fun _ _ _ _ _ _ _ _ => trivial
  again := fun _ _ _ _ _ _ _ => trivial

abbrev inodeBooks (T : Task) (F : Nat → File Nat) : Books Stop Machine Ref := ledger noBuffers 0 T F

theorem balanced_counted (m : Machine) :
    Balanced noBuffers m.state.current m.state.file (counted m.state) m :=
  ⟨rfl, rfl, fun _ => rfl, trivial⟩

variable {α β : Type} {r inp : Ref → Nat} {m : Machine}

/-- A call that moves references, from one state. -/
theorem ends_of_moves {x : Call α} {out : α → Ref → Nat} {r' : Ref → Nat}
    (h : Moves (inodeBooks T F) inp x out) (hm : Balanced noBuffers T F r' m) (hr : r' = r + inp) :
    Ends (Stopped noBuffers 0) x m fun a m' => Balanced noBuffers T F (r + out a) m' :=
  h.ends (fun _ => Nat.zero_le _) (hr ▸ hm)

theorem ends_look {g : State → α} {f : α → Call β} {Q : β → Machine → Prop}
    (h : Ends (Stopped noBuffers 0) (f (g m.state)) m Q) : Ends (Stopped noBuffers 0) (look g >>= f) m Q := h

theorem ends_alter {g : State → State} {f : Unit → Call β} {Q : β → Machine → Prop}
    (h : Ends (Stopped noBuffers 0) (f ()) { m with state := g m.state } Q) : Ends (Stopped noBuffers 0) (alter g >>= f) m Q := h

/-- `get_dir` looks at the root and the working directory first. -/
theorem getDir_ready {fuel : Nat} {path : Name} {o : Option Nat} {m' : Machine}
    (h : getDir fuel path m = .ok o m') : m.state.Ready := by
  unfold getDir at h
  rw [look_bind, id] at h
  cases hroot : m.state.current.root with
  | none =>
    rw [hroot] at h
    cases h
  | some root =>
    rw [hroot] at h
    simp only at h
    split at h
    · cases h
    · next hr =>
      cases hpwd : m.state.current.pwd with
      | none =>
        rw [hpwd] at h
        cases h
      | some pwd =>
        rw [hpwd] at h
        simp only at h
        split at h
        · cases h
        · next hp => exact ⟨⟨root, hroot, hr⟩, pwd, hpwd, hp⟩

theorem namei_ready {fuel : Nat} {path : Name} {o : Option Nat} {m' : Machine}
    (h : namei fuel path m = .ok o m') : m.state.Ready := by
  obtain ⟨d, m₁, hdir, -⟩ := bind_eq_ok h
  obtain ⟨d', m₂, hget, -⟩ := bind_eq_ok hdir
  exact getDir_ready hget

/-- What `sys_chdir` and `sys_chroot` do with an inode they found: the old one goes. -/
theorem ends_exchange {old : Nat} {i : Nat} {g : Task → Task}
    (hm : Balanced noBuffers T F (r + ref (.inode i)) m) (hold : r (.inode old) ≠ 0) :
    Ends (Stopped noBuffers 0) (do
      iputNull (some old)
      setCurrent g
      return 0 : Call Int) m fun v m' =>
        v = 0 ∧ Balanced noBuffers (g T) F (r - ref (.inode old) + ref (.inode i)) m' := by
  have hsplit : r + ref (.inode i) = (r - ref (.inode old) + ref (.inode i)) + ref (.inode old) := by
    funext k
    have hle : ref (.inode old) k ≤ r k := by
      rw [ref_apply]
      split
      · next heq => exact heq ▸ Nat.one_le_iff_ne_zero.mpr hold
      · exact Nat.zero_le _
    simp only [Pi.add_apply, Pi.sub_apply]
    omega
  refine (ends_of_moves (moves_iput watch_noBuffers.tally old) hm hsplit).bind fun _ m' hm' => ?_
  exact ends_alter (Ends.ret ⟨rfl, congrArg g hm'.current, hm'.file, hm'.inodes, trivial⟩)

/-- `i_count` of every inode changes as the references do. -/
def State.Accounts (s s' : State) : Prop :=
  ∀ i, (s'.inode i).iCount + s.refs i = (s.inode i).iCount + s'.refs i

/-- The process keeps all but one field, and the files stay. -/
def State.Replaces (s s' : State) (v : Int) (g : Nat → Task) : Prop :=
  s'.file = s.file ∧ (s'.current = s.current ∨ v = 0 ∧ ∃ i, s'.current = g i)

/-- Nothing is opened, or the descriptor `v` is, in a slot that was free. -/
def State.Opens (s s' : State) (v : Int) : Prop :=
  s'.current.root = s.current.root ∧ s'.current.pwd = s.current.pwd ∧
    (s'.file = s.file ∨ ∃ fd f i : Nat, v = fd ∧ f < nrFile ∧ (s.file f).fCount = 0 ∧
      s'.current.filp fd = some f ∧ (s'.file f).fCount = 1 ∧ (s'.file f).fInode = some i ∧
      ∀ g, g ≠ f → s'.file g = s.file g)

theorem accounts {s : State} (h : Balanced noBuffers T F r m)
    (hr : ∀ i, r (.inode i) + s.refs i = (s.inode i).iCount + refsOf T F i) : s.Accounts m.state := by
  intro i
  have hrefs : m.state.refs = refsOf T F := by rw [State.refs, h.current, h.file]
  rw [h.inodes, hrefs]
  exact hr i

/-- A call that gives back all it takes. -/
theorem ends_kept {x : Call α} (h : ∀ T F, Moves (inodeBooks T F) 0 x fun _ => 0) (m : Machine) :
    Ends (Stopped noBuffers 0) x m fun _ m' =>
      m.state.Accounts m'.state ∧ m'.state.current = m.state.current ∧ m'.state.file = m.state.file := by
  refine (ends_of_moves (h _ _) (balanced_counted m) (add_zero _).symm).mono fun v m' hm' => ?_
  exact ⟨accounts hm' fun i => rfl, hm'.current, hm'.file⟩

/-- `sys_chdir` and `sys_chroot`: a reference of the process is exchanged. -/
theorem ends_newDir (fuel : Nat) (filename : Name) (m : Machine) (dir : Task → Option Nat)
    (put : Nat → Task → Task)
    (hready : m.state.Ready → ∃ old, dir m.state.current = some old ∧ (m.state.inode old).iCount ≠ 0)
    (hrefs : ∀ T F i j, refsOf (put i T) F j + (if dir T = some j then 1 else 0) =
      refsOf T F j + if j = i then 1 else 0) :
    Ends (Stopped noBuffers 0) (do
      match ← namei fuel filename with
      | none => return -eNoent
      | some i =>
        if !isDir (← inode i).iMode then do
          iput i
          return -eNotdir
        else do
          iputNull (← look fun s => dir s.current)
          setCurrent (put i)
          return 0 : Call Int) m fun v m' =>
      m.state.Accounts m'.state ∧ m.state.Replaces m'.state v fun i => put i m.state.current := by
  have hnamei := ends_of_moves (moves_namei watch_noBuffers.tally fuel filename) (balanced_counted m)
    (add_zero _).symm
  refine (hnamei.of_ok fun _ _ => namei_ready).bind fun o m' h => ?_
  obtain ⟨hm', hr⟩ := h
  obtain ⟨old, hdir, hold⟩ := hready hr
  cases o with
  | none => exact Ends.ret ⟨accounts hm' fun i => rfl, hm'.file, Or.inl hm'.current⟩
  | some i =>
    refine ends_look ?_
    split
    · refine (ends_of_moves (moves_iput watch_noBuffers.tally i) hm' rfl).bind fun _ m'' hm'' => ?_
      exact Ends.ret ⟨accounts hm'' fun i => rfl, hm''.file, Or.inl hm''.current⟩
    · refine ends_look ?_
      rw [hm'.current, hdir]
      refine Ends.mono (ends_exchange hm' hold) fun v m'' h => ?_
      refine ⟨accounts h.2 fun j => ?_, h.2.file, Or.inr ⟨h.1, i, h.2.current⟩⟩
      have hsum := hrefs m.state.current m.state.file i j
      rw [hdir] at hsum
      show (counted m.state - ref (Ref.inode old) + ref (Ref.inode i)) (Ref.inode j) + m.state.refs j = _
      rw [Pi.add_apply, Pi.sub_apply, ref_apply, ref_apply]
      show ((m.state.inode j).iCount - _) + _ + refsOf m.state.current m.state.file j = _
      grind

theorem ends_sysChdir (fuel : Nat) (filename : Name) (m : Machine) :
    Ends (Stopped noBuffers 0) (sysChdir fuel filename) m fun v m' =>
      m.state.Accounts m'.state ∧
        m.state.Replaces m'.state v fun i => { m.state.current with pwd := some i } := by
  refine ends_newDir fuel filename m Task.pwd (fun i T => { T with pwd := some i }) (fun h => h.2) ?_
  intro T F i j
  simp only [refsOf, Option.some.injEq]
  grind

theorem ends_sysChroot (fuel : Nat) (filename : Name) (m : Machine) :
    Ends (Stopped noBuffers 0) (sysChroot fuel filename) m fun v m' =>
      m.state.Accounts m'.state ∧
        m.state.Replaces m'.state v fun i => { m.state.current with root := some i } := by
  refine ends_newDir fuel filename m Task.root (fun i T => { T with root := some i }) (fun h => h.1) ?_
  intro T F i j
  simp only [refsOf, Option.some.injEq]
  grind

/-! ## `sys_open` -/

theorem moves_checkBlk (i : Nat) : Moves (ledger K floor T F) 0 (checkBlk i) fun _ => 0 := by
  refine moves_look fun n => ?_
  split
  · unfold checkDiskChange
    split
    · exact Moves.ret rfl
    · refine moves_look fun change => ?_
      split
      · exact Moves.ret rfl
      · refine (Moves.forM fun k _ => moves_look fun dev => ?_).skip fun _ =>
          (Moves.forM fun j _ => (moves_waitOnInode j).skip fun _ => moves_look fun n' => ?_).skip fun _ =>
            moves_setCache fun c => ?_
        · split
          · refine moves_look fun s => ?_
            split
            · exact Moves.ret rfl
            · split
              · exact Moves.ret rfl
              · split
                · exact Moves.ret rfl
                · exact moves_setSuper
          · exact Moves.ret rfl
        · split
          · exact moves_setInode fun _ => rfl
          · exact Moves.ret rfl
        · funext b
          unfold Cache.held Cache.head
          cases hb : c.buffer b with
          | none => simp [hb]
          | some h => simp [hb]
  · exact Moves.ret rfl

/-- A terminal that is opened may become that of the process. -/
theorem ends_openTty {i : Nat} (hm : Balanced noBuffers T F r m) :
    Ends (Stopped noBuffers 0) (openTty i) m fun _ m' => ∃ T', T'.root = T.root ∧ T'.pwd = T.pwd ∧
      T'.filp = T.filp ∧ Balanced noBuffers T' F r m' := by
  have hstay : ∃ T', T'.root = T.root ∧ T'.pwd = T.pwd ∧ T'.filp = T.filp ∧ Balanced noBuffers T' F r m :=
    ⟨T, rfl, rfl, rfl, hm⟩
  refine ends_look ?_
  simp only
  split
  · split
    · split
      · refine ends_alter (ends_alter (Ends.ret ?_))
        have hroot : m.state.current.root = T.root := congrArg Task.root hm.current
        have hpwd : m.state.current.pwd = T.pwd := congrArg Task.pwd hm.current
        have hfilp : m.state.current.filp = T.filp := congrArg Task.filp hm.current
        exact ⟨{ m.state.current with tty := (m.state.inode i).iZone 0 % 256 }, hroot, hpwd, hfilp, rfl,
          hm.file, hm.inodes, trivial⟩
      · exact Ends.ret hstay
    · exact Ends.ret hstay
  · exact Ends.ret hstay

/-- `forgetFile`, and the error. -/
theorem ends_forgetFile (fd f : Nat) {v : Int} (hm : Balanced noBuffers T F r m) :
    Ends (Stopped noBuffers 0) (do forgetFile fd f; return v) m fun v' m' => v' = v ∧
      Balanced noBuffers { T with filp := Function.update T.filp fd none }
        (Function.update F f { F f with fCount := 0 }) r m' := by
  obtain ⟨rfl, rfl, hinodes, -⟩ := hm
  exact ⟨rfl, rfl, rfl, hinodes, trivial⟩

/-- A slot of the file table that was free refers to `i`. -/
theorem refsOf_open {f i j : Nat} {x : File Nat} (hf : f < nrFile) (hfree : (F f).fCount = 0)
    (hcount : x.fCount = 1) (hinode : x.fInode = some i) :
    refsOf T (Function.update F f x) j = refsOf T F j + if j = i then 1 else 0 := by
  have hheld : held (Function.update F f x) = Function.update (held F) f (some i) := by
    funext g
    unfold held
    rcases eq_or_ne g f with rfl | hne
    · rw [Function.update_self, Function.update_self, if_neg (by rw [hcount]; decide), hinode]
    · rw [Function.update_of_ne hne, Function.update_of_ne hne]
  have hsum := Lib.refs_update (r := held F) (f := j) (v := some i) (Finset.mem_range.mpr hf)
  have hnone : held F f = none := if_pos hfree
  rw [hnone] at hsum
  unfold refsOf
  rw [hheld]
  grind

/-- `sys_open` ends without a file, or with one in the slot `f`. -/
def OpenSlot (T : Task) (F : Nat → File Nat) (r : Ref → Nat) (fd f : Nat) (v : Int) (m : Machine) :
    Prop :=
  ∃ T', T'.root = T.root ∧ T'.pwd = T.pwd ∧
    (Balanced noBuffers T' F r m ∨ ∃ i x, v = fd ∧ T'.filp = T.filp ∧ x.fCount = 1 ∧
      x.fInode = some i ∧ Balanced noBuffers T' (Function.update F f x) (r + ref (.inode i)) m)

/-- A slot of the file table that is given up is as it was. -/
theorem ends_giveUp {T' : Task} {fd f : Nat} {v : Int} {x : File Nat}
    (hx : { x with fCount := 0 } = F f) (hroot : T'.root = T.root) (hpwd : T'.pwd = T.pwd)
    (hm : Balanced noBuffers T' (Function.update F f x) r m) :
    Ends (Stopped noBuffers 0) (do forgetFile fd f; return v) m (OpenSlot T F r fd f) := by
  refine (ends_forgetFile fd f hm).mono fun v' m' h => ?_
  have hback := h.2
  rw [Function.update_self, Function.update_idem, hx, Function.update_eq_self] at hback
  exact ⟨{ T' with filp := Function.update T'.filp fd none }, hroot, hpwd, Or.inl hback⟩

/-- `sys_open` with a descriptor and a slot of the file table, which has its first reference. -/
theorem ends_openSlot (fuel : Nat) (filename : Name) (flag mode fd : Nat) {f : Nat} {x : File Nat}
    (hx : { x with fCount := 0 } = F f) (hm : Balanced noBuffers T (Function.update F f x) r m) :
    Ends (Stopped noBuffers 0) (do
      match ← openNamei fuel filename flag mode with
      | .error e => do
        forgetFile fd f
        return -e
      | .ok i => do
        if ← openTty i then do
          iput i
          forgetFile fd f
          return -ePerm
        else do
          checkBlk i
          let n ← inode i
          setFile f fun _ => ⟨n.iMode, BitVec.ofNat 16 flag, 1, some i, 0⟩
          return fd : Call Int) m (OpenSlot T F r fd f) := by
  refine (ends_of_moves (moves_openNamei watch_noBuffers.tally fuel filename flag mode) hm
    (add_zero _).symm).bind fun res m₁ hm₁ => ?_
  cases res with
  | error e => exact ends_giveUp hx rfl rfl hm₁
  | ok i =>
    refine (ends_openTty hm₁).bind fun tty m₂ h => ?_
    obtain ⟨T', hroot, hpwd, hfilp, hm₂⟩ := h
    split
    · refine (ends_of_moves (moves_iput watch_noBuffers.tally i) hm₂ rfl).bind fun _ m₃ hm₃ => ?_
      exact ends_giveUp hx hroot hpwd hm₃
    · refine (ends_of_moves (moves_checkBlk i) hm₂ (add_zero _).symm).bind fun _ m₃ hm₃ => ?_
      let y : File Nat := ⟨(m₃.state.inode i).iMode, BitVec.ofNat 16 flag, 1, some i, 0⟩
      refine ends_look (ends_alter (Ends.ret ⟨T', hroot, hpwd, Or.inr ⟨i, y, rfl, hfilp, rfl, rfl, ?_⟩⟩))
      refine ⟨hm₃.current, ?_, hm₃.inodes, trivial⟩
      show Function.update m₃.state.file f _ = _
      rw [hm₃.file, Function.update_idem]

theorem ends_sysOpen (fuel : Nat) (filename : Name) (flag mode : Nat) (m : Machine) :
    Ends (Stopped noBuffers 0) (sysOpen fuel filename flag mode) m fun v m' =>
      m.state.Accounts m'.state ∧ m.state.Opens m'.state v := by
  refine ends_look ?_
  simp only
  split
  · exact Ends.ret ⟨accounts (balanced_counted m) fun i => rfl, rfl, rfl, Or.inl rfl⟩
  · next fd hfd =>
    refine ends_alter ?_
    split
    · exact Ends.ret ⟨fun i => rfl, rfl, rfl, Or.inl rfl⟩
    · next f hf =>
      have hlt : f < nrFile := List.mem_range.mp (List.mem_of_find?_eq_some hf)
      have hfree : (m.state.file f).fCount = 0 := by simpa using List.find?_some hf
      refine ends_alter (ends_alter ?_)
      let T : Task :=
        { m.state.current with
          closeOnExec := m.state.current.closeOnExec &&& ~~~(1#32 <<< fd)
          filp := Function.update m.state.current.filp fd (some f) }
      let x : File Nat := { m.state.file f with fCount := (m.state.file f).fCount + 1 }
      have hx : { x with fCount := 0 } = m.state.file f := by
        show ({ m.state.file f with fCount := 0 } : File Nat) = _
        rw [← hfree]
      let m₂ : Machine :=
        { m with state := { m.state with current := T, file := Function.update m.state.file f x } }
      have hm₂ : Balanced noBuffers T (Function.update m.state.file f x) (counted m.state) m₂ :=
        ⟨rfl, rfl, fun _ => rfl, trivial⟩
      refine Ends.mono (ends_openSlot fuel filename flag _ fd hx hm₂) ?_
      rintro v m' ⟨T', hroot, hpwd, hm' | ⟨i, y, hv, hfilp, hcount, hinode, hm'⟩⟩
      · have hrefs : ∀ j, refsOf T' m.state.file j = m.state.refs j := fun j => by
          rw [refsOf, hroot, hpwd]
          rfl
        refine ⟨accounts hm' fun j => by rw [hrefs]; rfl, ?_, ?_, Or.inl hm'.file⟩
        · rw [hm'.current]
          exact hroot
        · rw [hm'.current]
          exact hpwd
      · have hrefs : ∀ j, refsOf T' (Function.update m.state.file f y) j =
            m.state.refs j + if j = i then 1 else 0 := fun j => by
          rw [refsOf_open hlt hfree hcount hinode, refsOf, hroot, hpwd]
          rfl
        have hfile : m'.state.file f = y := by rw [hm'.file, Function.update_self]
        refine ⟨accounts hm' fun j => ?_, ?_, ?_, Or.inr ⟨fd, f, i, hv, hlt, hfree, ?_, ?_, ?_, ?_⟩⟩
        · rw [hrefs, Pi.add_apply, ref_apply]
          show (m.state.inode j).iCount + _ + m.state.refs j = _
          grind
        · rw [hm'.current]
          exact hroot
        · rw [hm'.current]
          exact hpwd
        · rw [hm'.current, hfilp]
          exact Function.update_self ..
        · rw [hfile, hcount]
        · rw [hfile, hinode]
        · intro g hg
          rw [hm'.file, Function.update_of_ne hg]

/-! ## The calls -/

/-- The calls that take a path name. -/
inductive PathCall where
  | «open» (filename : Name) (flag mode : Nat)
  | mknod (filename : Name) (mode dev : Nat)
  | mkdir (pathname : Name) (mode : Nat)
  | rmdir (name : Name)
  | link (oldname newname : Name)
  | unlink (name : Name)
  | chdir (filename : Name)
  | chroot (filename : Name)
  | chmod (filename : Name) (mode : Nat)
  | chown (filename : Name) (uid gid : Nat)
  | utime (filename : Name) (times : Option (Nat × Nat))
  | stat (filename : Name)
  | access (filename : Name) (mode : Nat)

namespace PathCall

def run (fuel : Nat) : PathCall → Call Int
  | .open filename flag mode => sysOpen fuel filename flag mode
  | .mknod filename mode dev => sysMknod fuel filename mode dev
  | .mkdir pathname mode => sysMkdir fuel pathname mode
  | .rmdir name => sysRmdir fuel name
  | .link oldname newname => sysLink fuel oldname newname
  | .unlink name => sysUnlink fuel name
  | .chdir filename => sysChdir fuel filename
  | .chroot filename => sysChroot fuel filename
  | .chmod filename mode => sysChmod fuel filename mode
  | .chown filename uid gid => sysChown fuel filename uid gid
  | .utime filename times => sysUtime fuel filename times
  | .stat filename => do
    let (r, _) ← sysStat fuel filename
    return r
  | .access filename mode => sysAccess fuel filename mode

/-- Which references a call may hand out or replace. -/
def Hands (c : PathCall) (s s' : State) (v : Int) : Prop :=
  match c with
  | .open _ _ _ => s.Opens s' v
  | .chdir _ => s.Replaces s' v fun i => { s.current with pwd := some i }
  | .chroot _ => s.Replaces s' v fun i => { s.current with root := some i }
  | _ => s'.current = s.current ∧ s'.file = s.file

end PathCall

/-- A path call that returns has changed the count of every inode as the references of the process and its
files changed, and only those it is about did. It does not stop for want of a reference. -/
theorem pathCall_accounts (fuel : Nat) (c : PathCall) (m : Machine) :
    match c.run fuel m with
    | .ok v m' => m.state.Accounts m'.state ∧ c.Hands m.state m'.state v
    | .error e _ => e ≠ .panic tryingToFree := by
  have hends : Ends (Stopped noBuffers 0) (c.run fuel) m fun v m' =>
      m.state.Accounts m'.state ∧ c.Hands m.state m'.state v := by
    have W := watch_noBuffers
    cases c with
    | «open» filename flag mode => exact ends_sysOpen fuel filename flag mode m
    | chdir filename => exact ends_sysChdir fuel filename m
    | chroot filename => exact ends_sysChroot fuel filename m
    | mknod filename mode dev => exact ends_kept (fun _ _ => moves_sysMknod W fuel filename mode dev) m
    | mkdir pathname mode => exact ends_kept (fun _ _ => moves_sysMkdir W fuel pathname mode) m
    | rmdir name => exact ends_kept (fun _ _ => moves_sysRmdir W fuel name) m
    | link oldname newname => exact ends_kept (fun _ _ => moves_sysLink W fuel oldname newname) m
    | unlink name => exact ends_kept (fun _ _ => moves_sysUnlink W fuel name) m
    | chmod filename mode => exact ends_kept (fun _ _ => moves_sysChmod W fuel filename mode) m
    | chown filename uid gid => exact ends_kept (fun _ _ => moves_sysChown W fuel filename uid gid) m
    | utime filename times => exact ends_kept (fun _ _ => moves_sysUtime W fuel filename times) m
    | stat filename =>
      refine ends_kept (fun _ _ => (moves_sysStat W fuel filename).bind fun p => ?_) m
      exact Moves.ret rfl
    | access filename mode => exact ends_kept (fun _ _ => moves_sysAccess W fuel filename mode) m
  unfold Ends at hends
  revert hends
  cases c.run fuel m with
  | ok v m' => exact id
  | error e m' => exact fun h => h.inode

end Linux011.Path
