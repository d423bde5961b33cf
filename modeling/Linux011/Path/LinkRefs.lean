import Linux011.Path.NameiRefs

/-!
# References in the calls that make and remove names

`sys_mknod`, `sys_mkdir`, `sys_rmdir`, `sys_unlink` and `sys_link` give back all they take, except in the turns
of `empty_dir` that are not safe.
-/

namespace Linux011.Path

open Linux011.Fs Linux011.Lib

variable {K : Log → (Key → Nat) → (Key → Nat) → Prop} {floor : Ref → Nat} {T : Task}
  {F : Nat → File Nat}

variable (W : Watch K floor) (fuel : Nat)

include W

omit fuel in
/-- `brelse(bh); iput(dir); return …;` -/
theorem moves_leaveFound {α : Type} (dir : Nat) (de : DirEntry) {a : α} {out : α → Ref → Nat}
    (h : out a = 0) :
    Moves (ledger K floor T F) (foundRef (dir, some de))
      (do brelse de.dev de.block; iput dir; return a) out :=
  (moves_brelse W.tally _ _).give _ (add_comm _ _) fun _ => moves_leave W.tally dir rfl h

theorem moves_sysMknod (filename : Name) (mode dev : Nat) :
    Moves (ledger K floor T F) 0 (sysMknod fuel filename mode dev) fun _ => 0 := by
  refine moves_look fun su => ?_
  split
  · exact Moves.ret rfl
  · refine (moves_dirNamei W.tally fuel filename).bind fun o => ?_
    cases o with
    | none => exact Moves.ret rfl
    | some p =>
      obtain ⟨dir, basename⟩ := p
      simp only
      split
      · exact moves_leave W.tally dir rfl (by rfl)
      · refine moves_look fun perm => ?_
        split
        · exact moves_leave W.tally dir rfl (by rfl)
        · refine (moves_findEntry W.tally dir basename).bind fun p => ?_
          obtain ⟨dir, found⟩ := p
          cases found with
          | some de => exact moves_leaveFound W dir de (by rfl)
          | none =>
            refine moves_look fun n => (moves_newInode W.tally _).take fun o => ?_
            cases o with
            | none => exact moves_leave W.tally dir ((zero_add _).trans (add_zero _)) (by rfl)
            | some i =>
              refine moves_look fun now => skip_setInode (fun _ => rfl) fun _ => ?_
              refine (moves_addEntry W.tally dir basename).take fun o => ?_
              cases o with
              | none =>
                refine (moves_iput W.tally dir).give (ref (.inode i)) ?_ fun _ => ?_
                · exact (add_comm _ _).trans (zero_add _).symm
                · exact skip_setInode (fun _ => rfl) fun _ => moves_leave W.tally i rfl (by rfl)
              | some de =>
                refine moves_look fun n => (moves_setEntry de _).skip fun _ => ?_
                refine (moves_iput W.tally dir).give (ref (.buffer de.dev de.block) + ref (.inode i)) ?_
                  fun _ => ?_
                · exact (add_comm _ _).trans (add_assoc _ _ _)
                refine (moves_iput W.tally i).give _ (add_comm _ _) fun _ => ?_
                exact (moves_brelse W.tally _ _).bind fun _ => Moves.ret rfl

omit fuel in
theorem moves_fillDir (dir i : Nat) (basename : Name) (mode : Nat) :
    Moves (ledger K floor T F) (ref (.inode i) + ref (.inode dir)) (fillDir dir i basename mode)
      fun _ => 0 := by
  refine moves_look fun n => (moves_newBlock W.tally _).skip fun z => skip_setInode (fun _ => rfl) fun _ => ?_
  split
  · refine (moves_iput W.tally dir).give (ref (.inode i)) (add_comm _ _) fun _ => ?_
    exact skip_setInode (fun _ => rfl) fun _ => moves_leave W.tally i rfl (by rfl)
  · refine skip_setInode (fun _ => rfl) fun _ => moves_got W.tally rfl ?_ ?_
    · refine moves_look fun s => (moves_write _ _ _).skip fun _ => skip_setInode (fun _ => rfl) fun _ => ?_
      refine (moves_brelse W.tally _ _).give _ rfl fun _ => skip_setInode (fun _ => rfl) fun _ => ?_
      refine (moves_addEntry W.tally dir basename).take fun o => ?_
      cases o with
      | none =>
        refine (moves_iput W.tally dir).give (ref (.inode i)) ((add_comm _ _).trans (zero_add _).symm) fun _ => ?_
        refine moves_look fun n => (moves_freeBlock W.tally _ _).skip fun _ => ?_
        exact skip_setInode (fun _ => rfl) fun _ => moves_leave W.tally i rfl (by rfl)
      | some de =>
        refine moves_look fun n => (moves_setEntry de _).skip fun _ => ?_
        refine skip_setInode (fun _ => rfl) fun _ => ?_
        refine (moves_iput W.tally dir).give (ref (.buffer de.dev de.block) + ref (.inode i)) ?_ fun _ => ?_
        · exact (add_comm _ _).trans (add_assoc _ _ _)
        refine (moves_iput W.tally i).give _ (add_comm _ _) fun _ => ?_
        exact (moves_brelse W.tally _ _).bind fun _ => Moves.ret rfl
    · refine (moves_iput W.tally dir).give (ref (.inode i)) (add_comm _ _) fun _ => ?_
      refine moves_look fun n => (moves_freeBlock W.tally _ _).skip fun _ => ?_
      exact skip_setInode (fun _ => rfl) fun _ => moves_leave W.tally i rfl (by rfl)

theorem moves_sysMkdir (pathname : Name) (mode : Nat) :
    Moves (ledger K floor T F) 0 (sysMkdir fuel pathname mode) fun _ => 0 := by
  refine moves_look fun su => ?_
  split
  · exact Moves.ret rfl
  · refine (moves_dirNamei W.tally fuel pathname).bind fun o => ?_
    cases o with
    | none => exact Moves.ret rfl
    | some p =>
      obtain ⟨dir, basename⟩ := p
      simp only
      split
      · exact moves_leave W.tally dir rfl (by rfl)
      · refine moves_look fun perm => ?_
        split
        · exact moves_leave W.tally dir rfl (by rfl)
        · refine (moves_findEntry W.tally dir basename).bind fun p => ?_
          obtain ⟨dir, found⟩ := p
          cases found with
          | some de => exact moves_leaveFound W dir de (by rfl)
          | none =>
            refine moves_look fun n => (moves_newInode W.tally _).take fun o => ?_
            cases o with
            | none => exact moves_leave W.tally dir ((zero_add _).trans (add_zero _)) (by rfl)
            | some i =>
              refine moves_look fun now => skip_setInode (fun _ => rfl) fun _ => ?_
              exact (moves_fillDir W dir i basename mode).cast
                (by simp [optRef, foundRef, entryRef]) fun _ => rfl

omit fuel in
/-- `iput(dir); iput(inode); brelse(bh); return …;` -/
theorem moves_leaveAll {α : Type} (dir i : Nat) (de : DirEntry) {a : α} {out : α → Ref → Nat}
    (h : out a = 0) :
    Moves (ledger K floor T F) (ref (.inode i) + foundRef (dir, some de))
      (do iput dir; iput i; brelse de.dev de.block; return a) out := by
  refine (moves_iput W.tally dir).give (ref (.inode i) + ref (.buffer de.dev de.block)) ?_ fun _ => ?_
  · exact (add_left_comm _ _ _)
  refine (moves_iput W.tally i).give _ rfl fun _ => ?_
  exact (moves_brelse W.tally _ _).bind fun _ => Moves.ret h

omit fuel in
/-- The same in the other order. -/
theorem moves_leaveAll' {α : Type} (dir i : Nat) (de : DirEntry) {a : α} {out : α → Ref → Nat}
    (h : out a = 0) :
    Moves (ledger K floor T F) (ref (.inode i) + foundRef (dir, some de))
      (do iput i; iput dir; brelse de.dev de.block; return a) out := by
  refine (moves_iput W.tally i).give _ rfl fun _ => (moves_iput W.tally dir).give _ rfl fun _ => ?_
  exact (moves_brelse W.tally _ _).bind fun _ => Moves.ret h

/-! ## `sys_rmdir` -/

omit fuel in
/-- After a hole `empty_dir` releases its buffer again. -/
theorem moves_again {α : Type} {x : Call α} {inp : Ref → Nat} {out : α → Ref → Nat} (dev b : Nat)
    (hx : Moves (ledger K floor T F) inp x out) :
    Moves (ledger K floor T F) inp (do mark (.further 0); brelse dev b; x) out := by
  rintro r hr m - ⟨hT, hF, hinodes, hk⟩
  let m₁ : Machine := { m with log := m.log ++ [(.further 0, m.state)] }
  have hrun : (do mark (.further 0); brelse dev b; x : Call α) m =
    EStateM.bind (brelse dev b) (fun _ => x) m₁ := rfl
  rw [hrun, EStateM.bind]
  rcases brelse_eq dev b m₁ with ⟨-, hstop⟩ | ⟨hne, c, hheld, hdone⟩
  · rw [hstop]
    refine ⟨by decide, fun heq => (by cases heq), fun _ => Or.inl fun hsafe => ?_⟩
    have hturn : (Turn.further 0, m.state) ∈ m.log ++ [(.further 0, m.state)] :=
      List.mem_append_right _ (List.mem_singleton.mpr rfl)
    exact hsafe _ (List.mem_append_left _ hturn) rfl
  · rw [hdone]
    refine hx r hr _ trivial ⟨hT, hF, hinodes, ?_⟩
    show K _ (m₁.setCache dev c).state.bufs _
    rw [bufs_loss hheld]
    exact W.again _ _ _ _ _ hk hne

omit fuel in
/-- A turn that is safe whatever the state is. -/
theorem moves_mark {t : Turn} (hrel : ∀ dev block, t ≠ .release dev block) (h : ∀ s, t.Safe s) :
    Moves (ledger K floor T F) 0 (mark t) fun _ => 0 := by
  rintro r hr m - ⟨hT, hF, hinodes, hk⟩
  exact ⟨trivial, hT, hF, hinodes, W.turn _ _ _ _ hk hrel (h m.state)⟩

omit fuel in
/-- `if (de->inode)`: the buffer is released, or the loop goes on with it. -/
theorem moves_emptyEntry {next : Call Bool} (dev b k : Nat)
    (h : Moves (ledger K floor T F) (ref (.buffer dev b)) next fun _ => 0) :
    Moves (ledger K floor T F) (ref (.buffer dev b)) (emptyEntry dev b k next) fun _ => 0 := by
  refine moves_look fun data => ?_
  split
  · exact (moves_brelse W.tally dev b).bind fun _ => Moves.ret rfl
  · exact h

omit fuel in
/-- The loop of `empty_dir` gives back the buffer it starts with, and takes nothing when it comes from a
hole. -/
theorem moves_emptyLoop (i dev len turns : Nat) :
    (∀ nr b k, Moves (ledger K floor T F) (ref (.buffer dev b)) (emptyLoop i dev len turns nr b k)
      fun _ => 0) ∧
    ∀ nr b k, 64 ≤ k → Moves (ledger K floor T F) 0
      (do mark (.further 0); emptyLoop i dev len turns nr b k) fun _ => 0 := by
  induction turns with
  | zero =>
    refine ⟨fun nr b k => moves_stop (Or.inl rfl), fun nr b k _ => ?_⟩
    exact fun r _ m _ _ => ⟨fun heq => (by cases heq), fun heq => (by cases heq), fun heq => (by cases heq)⟩
  | succ turns ih =>
    obtain ⟨hloop, hhole⟩ := ih
    have htail : ∀ nr b k, 64 ≤ k → Moves (ledger K floor T F) 0 (do
        let block ← bmap i (nr / 64)
        mark (.further block)
        if block = 0 then emptyLoop i dev len turns (nr + 64) b k
        else do
          if ← bread dev block then
            emptyEntry dev block 0 (emptyLoop i dev len turns (nr + 1) block 1)
          else return false) fun _ => 0 := by
      intro nr b k hk
      refine (moves_bmapCreate W.tally false i _).skip fun block => ?_
      rcases eq_or_ne block 0 with rfl | hne
      · simp only [if_true]
        exact hhole _ b k hk
      · simp only [if_neg hne]
        refine (moves_mark W (t := .further block) (fun _ _ heq => by cases heq) fun _ => hne).skip fun _ => ?_
        exact moves_got W.tally (add_zero _) (moves_emptyEntry W dev block 0 (hloop _ block 1)) (Moves.ret rfl)
    constructor
    · intro nr b k
      unfold emptyLoop
      split
      · exact (moves_brelse W.tally dev b).bind fun _ => Moves.ret rfl
      · split
        · exact moves_emptyEntry W dev b k (hloop _ b _)
        · next hk => exact (moves_brelse W.tally dev b).bind fun _ => htail nr b k (Nat.le_of_not_lt hk)
    · intro nr b k hk
      unfold emptyLoop
      split
      · exact moves_again W dev b (Moves.ret rfl)
      · rw [if_neg (Nat.not_lt_of_le hk)]
        exact moves_again W dev b (htail nr b k hk)

omit fuel in
/-- A directory without `'.'` and `'..'` at its head keeps the buffer. -/
theorem moves_header {x : Call Bool} (dev i b : Nat)
    (hx : Moves (ledger K floor T F) (ref (.buffer dev b)) x fun _ => 0) :
    Moves (ledger K floor T F) (ref (.buffer dev b)) (do
      mark (.header dev i b)
      let num := (← inode i).iNum
      if !goodHeader num (← bData dev b) then return false else x) fun _ => 0 := by
  rintro r hr m - ⟨hT, hF, hinodes, hk⟩
  let m₁ : Machine := { m with log := m.log ++ [(.header dev i b, m.state)] }
  let good : Bool := goodHeader (m.state.inode i).iNum ((m.state.cache dev).head b).data
  have hrun : (do
      mark (.header dev i b)
      let num := (← inode i).iNum
      if !goodHeader num (← bData dev b) then return false else x : Call Bool) m =
    (if !good then return false else x : Call Bool) m₁ := rfl
  rw [hrun]
  by_cases hgood : good = true
  · rw [hgood]
    exact hx r hr m₁ trivial ⟨hT, hF, hinodes, W.turn _ _ _ _ hk (fun _ _ heq => by cases heq) hgood⟩
  · rw [Bool.eq_false_iff.mpr hgood]
    refine ⟨trivial, hT, hF, fun j => ?_, ?_⟩
    · have hj := hinodes j
      rw [Pi.add_apply, ref_apply, if_neg (fun heq => by cases heq)] at hj
      exact hj
    · rw [bufRefs_add, bufRefs_buffer] at hk
      exact W.header _ _ _ _ _ _ hk hgood

omit fuel in
theorem moves_emptyDir (i : Nat) : Moves (ledger K floor T F) 0 (emptyDir i) fun _ => 0 := by
  refine moves_look fun n => ?_
  simp only
  split
  · exact Moves.ret rfl
  · refine moves_got W.tally (add_zero _) ?_ (Moves.ret rfl)
    exact moves_header W _ i _ ((moves_emptyLoop W i _ _ _).1 _ _ _)

omit fuel in
theorem moves_removeDir (dir i : Nat) (de : DirEntry) :
    Moves (ledger K floor T F) (ref (.inode i) + foundRef (dir, some de)) (removeDir dir i de)
      fun _ => 0 := by
  refine (moves_emptyDir W i).skip fun empty => ?_
  split
  · exact moves_leaveAll' W dir i de (by rfl)
  · refine (moves_setEntry de 0).skip fun _ => ?_
    refine (moves_brelse W.tally de.dev de.block).give (ref (.inode i) + ref (.inode dir)) ?_ fun _ => ?_
    · exact (add_comm _ _).trans (add_assoc _ _ _)
    refine skip_setInode (fun _ => rfl) fun _ => moves_look fun now => skip_setInode (fun _ => rfl) fun _ => ?_
    exact (moves_iput W.tally dir).give _ (add_comm _ _) fun _ => moves_leave W.tally i rfl (by rfl)

theorem moves_sysRmdir (name : Name) :
    Moves (ledger K floor T F) 0 (sysRmdir fuel name) fun _ => 0 := by
  refine moves_look fun su => ?_
  split
  · exact Moves.ret rfl
  · refine (moves_dirNamei W.tally fuel name).bind fun o => ?_
    cases o with
    | none => exact Moves.ret rfl
    | some p =>
      obtain ⟨dir, basename⟩ := p
      simp only
      split
      · exact moves_leave W.tally dir rfl (by rfl)
      · refine moves_look fun perm => ?_
        split
        · exact moves_leave W.tally dir rfl (by rfl)
        · refine (moves_findEntry W.tally dir basename).bind fun p => ?_
          obtain ⟨dir, found⟩ := p
          cases found with
          | none => exact moves_leave W.tally dir (add_zero _) (by rfl)
          | some de =>
            refine moves_look fun data => moves_look fun n => (moves_iget W.tally fuel _ _).take fun o => ?_
            cases o with
            | none =>
              refine (moves_iput W.tally dir).give _ (zero_add _).symm fun _ => ?_
              exact (moves_brelse W.tally _ _).bind fun _ => Moves.ret rfl
            | some i =>
              refine moves_look fun s => ?_
              simp only
              split
              · exact moves_leaveAll W dir i de (by rfl)
              · split
                · exact moves_leaveAll' W dir i de (by rfl)
                · split
                  · exact moves_leaveAll' W dir i de (by rfl)
                  · exact moves_removeDir W dir i de

/-! ## `sys_unlink` and `sys_link` -/

theorem moves_sysUnlink (name : Name) :
    Moves (ledger K floor T F) 0 (sysUnlink fuel name) fun _ => 0 := by
  refine (moves_dirNamei W.tally fuel name).bind fun o => ?_
  cases o with
  | none => exact Moves.ret rfl
  | some p =>
    obtain ⟨dir, basename⟩ := p
    simp only
    split
    · exact moves_leave W.tally dir rfl (by rfl)
    · refine moves_look fun perm => ?_
      split
      · exact moves_leave W.tally dir rfl (by rfl)
      · refine (moves_findEntry W.tally dir basename).bind fun p => ?_
        obtain ⟨dir, found⟩ := p
        cases found with
        | none => exact moves_leave W.tally dir (add_zero _) (by rfl)
        | some de =>
          refine moves_look fun data => moves_look fun n => (moves_iget W.tally fuel _ _).take fun o => ?_
          cases o with
          | none =>
            refine (moves_iput W.tally dir).give _ (zero_add _).symm fun _ => ?_
            exact (moves_brelse W.tally _ _).bind fun _ => Moves.ret rfl
          | some i =>
            refine moves_look fun s => ?_
            simp only
            split
            · exact moves_leaveAll W dir i de (by rfl)
            · split
              · exact moves_leaveAll' W dir i de (by rfl)
              · refine skip_setInode (fun _ => rfl) fun _ => (moves_setEntry de 0).skip fun _ => ?_
                refine (moves_brelse W.tally de.dev de.block).give (ref (.inode i) + ref (.inode dir)) ?_ fun _ => ?_
                · exact (add_comm _ _).trans (add_assoc _ _ _)
                refine skip_setInode (fun _ => rfl) fun _ => (moves_iput W.tally i).give _ rfl fun _ => ?_
                exact moves_leave W.tally dir rfl (by rfl)

theorem moves_linkTo (oldinode : Nat) (newname : Name) :
    Moves (ledger K floor T F) (ref (.inode oldinode)) (linkTo fuel oldinode newname)
      fun _ => 0 := by
  refine (moves_dirNamei W.tally fuel newname).take fun o => ?_
  cases o with
  | none => exact moves_leave W.tally oldinode (zero_add _) (by rfl)
  | some p =>
    obtain ⟨dir, basename⟩ := p
    have hboth : ∀ dir e, Moves (ledger K floor T F) (ref (.inode dir) + ref (.inode oldinode))
        (do iput dir; iput oldinode; return e) fun _ : Int => 0 :=
      fun dir e => (moves_iput W.tally dir).give _ rfl fun _ => moves_leave W.tally oldinode rfl rfl
    simp only
    split
    · exact (moves_iput W.tally oldinode).give _ (add_comm _ _) fun _ => moves_leave W.tally dir rfl (by rfl)
    · refine moves_look fun s => ?_
      split
      · exact hboth dir _
      · split
        · exact hboth dir _
        · refine (moves_findEntry W.tally dir basename).swap rfl fun p => ?_
          obtain ⟨dir, found⟩ := p
          cases found with
          | some de =>
            refine (moves_brelse W.tally de.dev de.block).give (ref (.inode dir) + ref (.inode oldinode)) ?_
              fun _ => hboth dir _
            exact (add_left_comm _ _ _).trans (add_assoc _ _ _).symm
          | none =>
            refine (moves_addEntry W.tally dir basename).take fun o => ?_
            cases o with
            | none =>
              exact (hboth dir _).cast (by simp [foundRef, entryRef]) fun _ => rfl
            | some de =>
              refine moves_look fun n => (moves_setEntry de _).skip fun _ => ?_
              refine (moves_brelse W.tally de.dev de.block).give (ref (.inode dir) + ref (.inode oldinode)) rfl
                fun _ => (moves_iput W.tally dir).give _ rfl fun _ => ?_
              exact moves_look fun now => skip_setInode (fun _ => rfl) fun _ =>
                moves_leave W.tally oldinode rfl (by rfl)

theorem moves_sysLink (oldname newname : Name) :
    Moves (ledger K floor T F) 0 (sysLink fuel oldname newname) fun _ => 0 := by
  refine (moves_namei W.tally fuel oldname).bind fun o => ?_
  cases o with
  | none => exact Moves.ret rfl
  | some oldinode =>
    refine moves_look fun n => ?_
    split
    · exact moves_leave W.tally oldinode rfl (by rfl)
    · exact moves_linkTo W fuel oldinode newname

end Linux011.Path
