import Linux011.Path.Ledger

/-!
# References in `bitmap.c`, `truncate.c` and `inode.c`

What each function does to the references to inodes and buffers. Most of them give back what they take.
`iput` takes a reference to an inode, and `get_empty_inode`, `iget` and `new_inode` give one.
-/

namespace Linux011.Path

open Linux011.Fs Linux011.Lib

variable {K : Log → (Key → Nat) → (Key → Nat) → Prop} {floor : Ref → Nat} {T : Task}
  {F : Nat → File Nat}

section

variable (W : Tally K floor)

include W

/-! ## fs/bitmap.c -/

theorem moves_newZone (dev j : Nat) :
    Moves (ledger K floor T F) 0 (newZone dev j) fun _ => 0 := by
  refine Moves.of_spec (Q := fun _ _ => True) (spec_look fun c => ?_)
  simp only
  split
  · exact spec_kpanic (by decide)
  · refine Spec.bind (Q := fun _ _ => True)
      (spec_setCache (ref (.buffer dev j)) (fun i => ?_) (fun m r hc _ hk => ?_) fun _ _ => trivial)
      fun _ => ?_
    · rw [ref_apply, if_neg (fun heq => by cases heq)]
      rfl
    · have hheld : (Dev.clearBlock j (c.getblk j)).held = Function.update c.held j (c.held j + 1) := by
        rw [Dev.clearBlock, Cache.set_held, ← Cache.held_getblk j]
        exact Function.update_eq_self j _
      rw [bufs_gain (by rw [hheld, hc.2]), bufRefs_buffer]
      exact W.gain _ _ _ _ hk
    · exact (moves_brelse W dev j).bind fun _ => Moves.ret rfl

theorem moves_newBlock (dev : Nat) :
    Moves (ledger K floor T F) 0 (newBlock dev) fun _ => 0 := by
  refine moves_look fun k => ?_
  cases k with
  | none => exact moves_kpanic (by decide)
  | some k =>
    refine moves_look fun sb => ?_
    simp only
    split
    · exact Moves.ret rfl
    · split
      · exact moves_kpanic (by decide)
      · refine moves_setSuper.skip fun _ => ?_
        split
        · exact Moves.ret rfl
        · exact moves_newZone W dev _

omit W in
theorem spec_clearBit (k block : Nat) :
    Spec (ledger K floor T F)
      (fun m => (block + 1 - (m.state.superBlock k).sFirstdatazone) / 8192 <
        (m.state.superBlock k).sZmapBlocks) 0 (clearBit k block) (fun _ => 0) fun _ _ => True := by
  refine spec_look fun sb => ?_
  simp only
  split
  · next hle =>
    refine Spec.absurd ?_
    rintro r m ⟨hlt, rfl⟩ -
    exact Nat.not_lt_of_le hle hlt
  · split
    · exact moves_setSuper.spec
    · exact spec_kpanic (by decide)

omit W in
/-- There is no buffer of the bitmap with the bit of the block. -/
theorem clearBit_fails {k block : Nat} {m : Machine}
    (h : ¬ (block + 1 - (m.state.superBlock k).sFirstdatazone) / 8192 <
      (m.state.superBlock k).sZmapBlocks) : clearBit k block m = .error .nullBuffer m := by
  have hrun : clearBit k block m =
      (let sb := m.state.superBlock k
      let bit := block + 1 - sb.sFirstdatazone
      if sb.sZmapBlocks ≤ bit / 8192 then throw .nullBuffer
      else if sb.zmap bit then setSuper k fun sb => { sb with zmap := Function.update sb.zmap bit false }
      else kpanic "free_block: bit already cleared" : Call Unit) m := rfl
  rw [hrun]
  simp only
  rw [if_pos (Nat.le_of_not_lt h)]
  rfl

omit W in
/-- A buffer that somebody else has is kept. -/
theorem forget_held {dev block : Nat} {m : Machine} (h : m.state.bufs (dev, block) ≠ 0) :
    forget dev block m = .ok false (m.setCache dev ((m.state.cache dev).getblk block)) := by
  cases hb : (m.state.cache dev).buffer block with
  | none =>
    refine absurd ?_ h
    rw [State.bufs, Cache.held, Cache.head, hb]
    rfl
  | some b =>
    have hcount : b.count ≠ 0 := by
      rw [State.bufs, Cache.held, Cache.head, hb] at h
      exact h
    unfold forget
    rw [look_bind, hb]
    show (if b.count ≠ 0 then _ else _ : Call Bool) m = _
    rw [if_pos hcount]
    rfl

omit W in
theorem forget_free {dev block : Nat} {m : Machine} (h : m.state.bufs (dev, block) = 0) :
    ∃ c : Cache, c.held = (m.state.cache dev).held ∧
      forget dev block m = .ok true (m.setCache dev c) := by
  unfold forget
  rw [look_bind]
  cases hb : (m.state.cache dev).buffer block with
  | none =>
    refine ⟨m.state.cache dev, rfl, ?_⟩
    rw [Machine.setCache, Function.update_eq_self]
    rfl
  | some b =>
    have hcount : b.count = 0 := by
      rw [State.bufs, Cache.held, Cache.head, hb] at h
      exact h
    refine ⟨(m.state.cache dev).set block { b with dirt := false, uptodate := false }, ?_, ?_⟩
    · rw [Cache.set_held]
      refine (congrArg _ ?_).trans (Function.update_eq_self block _)
      rw [Cache.held, Cache.head, hb]
      rfl
    · show (if b.count ≠ 0 then _ else _ : Call Bool) m = _
      rw [if_neg (not_not.mpr hcount)]
      rfl

/-- The reference that `free_block` does not give back is one of a turn that is not safe. -/
theorem moves_freeBlock (dev block : Nat) :
    Moves (ledger K floor T F) 0 (freeBlock dev block) fun _ => 0 := by
  refine moves_look fun k => ?_
  cases k with
  | none => exact moves_kpanic (by decide)
  | some k =>
    refine moves_look fun sb => ?_
    split
    · exact moves_kpanic (by decide)
    · rintro r hr m - ⟨hT, hF, hinodes, hk⟩
      have hk : K m.log m.state.bufs (bufRefs r) := hk
      let m₁ : Machine := { m with log := m.log ++ [(.free dev k block, m.state)] }
      let rest : Bool → Call Unit := fun got => if got = true then clearBit k block else return
      have hrun : (mark (.free dev k block) >>= fun _ => forget dev block >>= rest) m =
        EStateM.bind (forget dev block) rest m₁ := rfl
      rw [hrun]
      by_cases hheld : m.state.bufs (dev, block) = 0
      · obtain ⟨c, hc, hforget⟩ := forget_free (m := m₁) hheld
        by_cases hlt : (block + 1 - (m.state.superBlock k).sFirstdatazone) / 8192 <
            (m.state.superBlock k).sZmapBlocks
        · rw [EStateM.bind, hforget]
          refine spec_clearBit k block r hr (m₁.setCache dev c) hlt ⟨hT, hF, hinodes, ?_⟩
          rw [bufs_same hc]
          exact W.turn _ _ _ _ hk trivial ⟨hheld, hlt⟩
        · have hstop : EStateM.bind (forget dev block) rest m₁ = .error .nullBuffer (m₁.setCache dev c) := by
            rw [EStateM.bind, hforget]
            exact clearBit_fails hlt
          rw [hstop]
          exact ⟨fun heq => (by cases heq), fun _ => not_safe_snoc fun hsafe => hlt hsafe.2,
            fun heq => (by cases heq)⟩
      · rw [EStateM.bind, forget_held (m := m₁) hheld]
        refine ⟨trivial, hT, hF, hinodes, ?_⟩
        show K _ (m₁.setCache dev _).state.bufs (bufRefs r)
        rw [bufs_gain (Cache.held_getblk block)]
        exact W.leak _ _ _ _ _ _ hk hheld

/-! ## `bmap` and `truncate` -/

theorem moves_inodeZone (create : Bool) (i k : Nat) :
    Moves (ledger K floor T F) 0 (inodeZone create i k) fun _ => 0 := by
  refine moves_look fun n => ?_
  split
  · refine (moves_newBlock W _).skip fun z => ?_
    split
    · exact Moves.ret rfl
    · refine moves_look fun now => ?_
      exact skip_setInode (fun _ => rfl) fun _ => Moves.ret rfl
  · exact Moves.ret rfl

theorem moves_entryZone (create : Bool) (dev b k : Nat) :
    Moves (ledger K floor T F) 0 (entryZone create dev b k) fun _ => 0 := by
  refine moves_got W (add_zero _) (moves_look fun data => ?_) (Moves.ret rfl)
  simp only
  split
  · refine (moves_newBlock W dev).skip fun z => ?_
    split
    · exact (moves_brelse W dev b).bind fun _ => Moves.ret rfl
    · refine (moves_write dev b _).skip fun _ => ?_
      exact (moves_brelse W dev b).bind fun _ => Moves.ret rfl
  · exact (moves_brelse W dev b).bind fun _ => Moves.ret rfl

theorem moves_bmapCreate (create : Bool) (i block : Nat) :
    Moves (ledger K floor T F) 0 (bmapCreate create i block) fun _ => 0 := by
  refine moves_look fun n => ?_
  simp only
  split
  · exact moves_kpanic (by decide)
  · split
    · exact moves_inodeZone W create i block
    · split
      · refine (moves_inodeZone W create i 7).skip fun b => ?_
        split
        · exact Moves.ret rfl
        · exact moves_entryZone W create _ b _
      · refine (moves_inodeZone W create i 8).skip fun b => ?_
        split
        · exact Moves.ret rfl
        · refine (moves_entryZone W create _ b _).skip fun b' => ?_
          split
          · exact Moves.ret rfl
          · exact moves_entryZone W create _ b' _

theorem moves_freeEntries {free : Nat → Call Unit} (dev b : Nat)
    (hfree : ∀ z, Moves (ledger K floor T F) 0 (free z) fun _ => 0) :
    Moves (ledger K floor T F) 0 (freeEntries free dev b) fun _ => 0 := by
  have hentry : ∀ k, Moves (ledger K floor T F) 0 (freeEntry free dev b k) fun _ => 0 := by
    intro k
    refine moves_look fun data => ?_
    simp only
    split
    · exact Moves.ret rfl
    · exact hfree _
  have hloop : ∀ cs : List Nat, Moves (ledger K floor T F) 0
      (cs.forM (freeEntry free dev b)) fun _ => 0 := fun cs => Moves.forM fun k _ => hentry k
  unfold freeEntries
  generalize List.range 512 = cs
  exact moves_got W (add_zero _) ((hloop cs).skip fun _ => moves_brelse W dev b) (Moves.ret rfl)

theorem moves_freeIndex {free : Nat → Call Unit} (dev b : Nat)
    (hfree : ∀ z, Moves (ledger K floor T F) 0 (free z) fun _ => 0) :
    Moves (ledger K floor T F) 0 (freeIndex free dev b) fun _ => 0 := by
  unfold freeIndex
  split
  · exact Moves.ret rfl
  · exact (moves_freeEntries W dev b hfree).skip fun _ => moves_freeBlock W dev b

theorem moves_freeDirect (i k : Nat) :
    Moves (ledger K floor T F) 0 (freeDirect i k) fun _ => 0 := by
  refine moves_look fun n => ?_
  split
  · exact Moves.ret rfl
  · exact (moves_freeBlock W _ _).skip fun _ => moves_setInode fun _ => rfl

theorem moves_truncate (i : Nat) :
    Moves (ledger K floor T F) 0 (truncate i) fun _ => 0 := by
  refine moves_look fun n => ?_
  have hind : ∀ dev b, Moves (ledger K floor T F) 0 (freeInd dev b) fun _ => 0 :=
    fun dev b => moves_freeIndex W dev b (moves_freeBlock W dev)
  split
  · exact Moves.ret rfl
  · refine Moves.skip (Moves.forM fun k _ => moves_freeDirect W i k) fun _ => ?_
    refine moves_look fun n₇ => (hind _ _).skip fun _ => ?_
    refine moves_look fun n₈ => (moves_freeIndex W _ _ (hind _)).skip fun _ => ?_
    exact moves_look fun now => moves_setInode fun _ => rfl

end

/-! ## fs/inode.c -/

theorem moves_waitOnInode (i : Nat) :
    Moves (ledger K floor T F) 0 (waitOnInode i) fun _ => 0 := by
  refine moves_look fun n => ?_
  split
  · exact moves_stop (Or.inl rfl)
  · exact Moves.ret rfl

theorem moves_lockInode (i : Nat) :
    Moves (ledger K floor T F) 0 (lockInode i) fun _ => 0 :=
  (moves_waitOnInode i).skip fun _ => moves_setInode fun _ => rfl

theorem moves_unlockInode (i : Nat) :
    Moves (ledger K floor T F) 0 (unlockInode i) fun _ => 0 :=
  moves_setInode fun _ => rfl

theorem moves_flushDev (dev : Nat) :
    Moves (ledger K floor T F) 0 (flushDev dev) fun _ => 0 := by
  refine moves_setCache fun c => funext fun b => ?_
  unfold Cache.held Cache.head Cache.flush
  cases hb : c.buffer b with
  | none => simp [hb]
  | some h => cases hd : h.dirt <;> simp [hb, hd]

section

variable (W : Tally K floor)

include W

theorem moves_readInode (i : Nat) :
    Moves (ledger K floor T F) 0 (readInode i) fun _ => 0 := by
  refine (moves_lockInode i).skip fun _ => moves_look fun n => moves_look fun k => ?_
  cases k with
  | none => exact moves_kpanic (by decide)
  | some k =>
    refine moves_look fun sb => moves_got W (add_zero _) ?_ (moves_kpanic (by decide))
    refine moves_look fun data => skip_setInode (fun _ => rfl) fun _ => ?_
    exact (moves_brelse W _ _).bind fun _ => moves_unlockInode i

theorem moves_writeInode (i : Nat) :
    Moves (ledger K floor T F) 0 (writeInode i) fun _ => 0 := by
  refine (moves_lockInode i).skip fun _ => moves_look fun n => ?_
  split
  · exact moves_unlockInode i
  · refine moves_look fun k => ?_
    cases k with
    | none => exact moves_kpanic (by decide)
    | some k =>
      refine moves_look fun sb => moves_got W (add_zero _) ?_ (moves_kpanic (by decide))
      refine (moves_write _ _ _).skip fun _ => skip_setInode (fun _ => rfl) fun _ => ?_
      exact (moves_brelse W _ _).bind fun _ => moves_unlockInode i

theorem moves_syncDev (dev : Nat) :
    Moves (ledger K floor T F) 0 (syncDev dev) fun _ => 0 := by
  refine (moves_flushDev dev).skip fun _ => Moves.skip (Moves.forM fun i _ => ?_) fun _ => moves_flushDev dev
  refine (moves_waitOnInode i).skip fun _ => moves_look fun n => ?_
  split
  · exact moves_writeInode W i
  · exact Moves.ret rfl

/-! ## `iput` -/

omit W in
theorem moves_dropCount (i : Nat) :
    Moves (ledger K floor T F) (ref (.inode i)) (dropCount i) fun _ => 0 := by
  refine Moves.of_spec (spec_setInode 0 (fun r hr => ?_) fun m r _ hcount => ?_)
  · rw [ref_apply, if_neg hr]
    rfl
  · rw [ref_apply, if_pos rfl] at hcount
    show (m.state.inode i).iCount - 1 = r + 0
    omega

omit W in
/-- The last reference goes with the inode. -/
theorem spec_clear {i : Nat} {g : MInode → MInode} (hg : ∀ n, (g n).iCount = 0) :
    Spec (ledger K floor T F) (fun m => (m.state.inode i).iCount ≤ 1) (ref (.inode i))
      (setInode i g) (fun _ => 0) fun _ _ => True := by
  refine (spec_setInode 0 (fun r hr => ?_) fun m r hle hcount => ?_).conseq (fun _ => id)
    fun _ _ _ => trivial
  · rw [ref_apply, if_neg hr]
    rfl
  · rw [ref_apply, if_pos rfl] at hcount
    rw [hg]
    show 0 = r + 0
    omega

omit W in
theorem spec_freeInode (i : Nat) :
    Spec (ledger K floor T F) (fun m => (m.state.inode i).iCount ≤ 1) (ref (.inode i))
      (freeInode i) (fun _ => 0) fun _ _ => True := by
  refine spec_look fun n => ?_
  split
  · exact (spec_clear fun _ => rfl).conseq (fun _ h => h.1) fun _ _ => id
  · split
    · exact spec_kpanic (by decide)
    · split
      · exact spec_kpanic (by decide)
      · refine spec_look fun k => ?_
        cases k with
        | none => exact spec_kpanic (by decide)
        | some k =>
          refine spec_look fun sb => ?_
          split
          · exact spec_kpanic (by decide)
          · split
            · exact spec_kpanic (by decide)
            · refine Spec.conseq ?_ (fun _ h => h.1.1.1) fun _ _ => id
              exact (Moves.count (· ≤ 1) moves_setSuper).skip fun _ => spec_clear fun _ => rfl

theorem moves_iputAgain (i turns : Nat) :
    Moves (ledger K floor T F) (ref (.inode i)) (iputAgain i turns) fun _ => 0 := by
  induction turns with
  | zero => exact moves_stop (Or.inl rfl)
  | succ turns ih =>
    refine moves_known fun n => ?_
    split
    · exact (moves_dropCount i).spec
    · next hle =>
      split
      · refine Spec.conseq ((Moves.count (· ≤ 1) (moves_truncate W i)).skip fun _ => spec_freeInode i)
          (fun m h => ?_) fun _ _ => id
        rw [h]
        exact Nat.le_of_not_lt hle
      · split
        · exact ((moves_writeInode W i).skip fun _ => (moves_waitOnInode i).skip fun _ => ih).spec
        · exact (moves_dropCount i).spec

/-- `iput` takes a reference, so it does not find an inode without one. -/
theorem moves_iput (i : Nat) :
    Moves (ledger K floor T F) (ref (.inode i)) (iput i) fun _ => 0 := by
  refine (moves_waitOnInode i).skip fun _ => moves_known fun n => ?_
  split
  · next hzero =>
    refine Spec.absurd ?_
    rintro r m hn ⟨-, -, hinodes, -⟩
    have hcount := hinodes i
    rw [hn, hzero, Pi.add_apply, ref_apply, if_pos rfl] at hcount
    cases hcount
  · split
    · split
      · next hone =>
        exact (spec_clear fun _ => rfl).conseq (fun m h => (h ▸ hone).le) fun _ _ => id
      · exact (moves_dropCount i).spec
    · split
      · exact (moves_dropCount i).spec
      · split
        · refine Moves.spec ?_
          exact (moves_syncDev W _).skip fun _ => (moves_waitOnInode i).skip fun _ =>
            moves_iputAgain W i 2
        · exact (moves_iputAgain W i 2).spec

/-! ## `iget` and `new_inode` -/

omit W in
theorem moves_addCount (i : Nat) :
    Moves (ledger K floor T F) 0 (setInode i fun n => { n with iCount := n.iCount + 1 })
      fun _ => ref (.inode i) := by
  refine Moves.of_spec (spec_setInode (ref (.inode i)) (fun r hr => ?_) fun m r _ hcount => ?_)
  · rw [ref_apply, if_neg hr]
    rfl
  · rw [ref_apply, if_pos rfl, hcount]
    rfl

theorem moves_cleanInode (i : Nat) :
    Moves (ledger K floor T F) 0 (cleanInode i) fun _ => 0 := by
  refine moves_look fun n => ?_
  split
  · refine (moves_writeInode W i).skip fun _ => (moves_waitOnInode i).skip fun _ => ?_
    refine moves_look fun n => ?_
    split
    · exact moves_stop (Or.inl rfl)
    · exact Moves.ret rfl
  · exact Moves.ret rfl

/-- `get_empty_inode` gives the only reference there is. -/
theorem spec_getEmptyInode :
    Spec (ledger K floor T F) (fun _ => True) 0 getEmptyInode (fun i => ref (.inode i))
      fun i m => (m.state.inode i).iCount = 1 := by
  refine spec_look fun c => ?_
  obtain ⟨choice, last⟩ := c
  cases choice with
  | none => exact spec_kpanic (by decide)
  | some i =>
    refine Spec.skip (Q := fun _ _ => True) (Moves.spec ?_) fun _ => ?_
    · exact moves_alter (fun _ => rfl) (fun _ => rfl) (fun _ _ => rfl) fun _ => rfl
    refine Spec.skip (moves_waitOnInode i).spec fun _ => Spec.skip (moves_cleanInode W i).spec fun _ => ?_
    refine spec_look fun n => ?_
    split
    · exact spec_stop (Or.inl rfl)
    · next hfree =>
      refine Spec.bind (spec_setInode (ref (.inode i)) (fun r hr => ?_) fun m r h hcount => ?_) fun _ =>
        Spec.ret ?_ rfl
      · rw [ref_apply, if_neg hr]
        rfl
      · rw [h.2, not_not.mp hfree] at hcount
        rw [ref_apply, if_pos rfl]
        show 1 = r + 1
        have hzero : 0 = r + 0 := hcount
        omega
      · rintro m ⟨n, -, hm⟩
        rw [hm]

theorem moves_igetSearch (empty fuel : Nat) :
    ∀ dev nr, Moves (ledger K floor T F) (ref (.inode empty)) (igetSearch empty fuel dev nr)
      optRef := by
  induction fuel with
  | zero => exact fun dev nr => moves_stop (Or.inl rfl)
  | succ fuel ih =>
    intro dev nr
    refine moves_look fun found => ?_
    cases found with
    | none =>
      refine skip_setInode (fun _ => rfl) fun _ => (moves_readInode W empty).skip fun _ => ?_
      exact Moves.ret rfl
    | some i =>
      refine (moves_waitOnInode i).skip fun _ => (moves_addCount i).take fun _ => ?_
      refine moves_look fun n => ?_
      have hdone : Moves (ledger K floor T F) (ref (.inode i) + ref (.inode empty))
          (do iput empty; return some i) optRef :=
        (moves_iput W empty).give _ (add_comm _ _) fun _ => Moves.ret rfl
      split
      · refine moves_look fun k => ?_
        cases k with
        | none => exact hdone
        | some k =>
          refine (moves_iput W i).give _ rfl fun _ => ?_
          exact moves_look fun sb => ih _ _
      · exact hdone

theorem moves_iget (fuel dev nr : Nat) :
    Moves (ledger K floor T F) 0 (iget fuel dev nr) optRef := by
  unfold iget
  split
  · exact moves_kpanic (by decide)
  · exact (Moves.of_spec (spec_getEmptyInode W)).bind fun empty => moves_igetSearch W empty fuel dev nr

theorem moves_newInode (dev : Nat) :
    Moves (ledger K floor T F) 0 (newInode dev) optRef := by
  refine Moves.of_spec (Q := fun _ _ => True) ((spec_getEmptyInode W).bind fun i => ?_)
  refine spec_look fun k => ?_
  cases k with
  | none => exact spec_kpanic (by decide)
  | some k =>
    have hfull : Moves (ledger K floor T F) (ref (.inode i))
        (do iput i; return none : Call (Option Nat)) optRef :=
      (moves_iput W i).bind fun _ => Moves.ret rfl
    refine spec_look fun sb => ?_
    split
    · exact hfull.spec
    · split
      · exact hfull.spec
      · split
        · exact spec_kpanic (by decide)
        · refine Spec.conseq ?_ (fun m h => h.1.1) fun _ _ => id
          refine (Moves.count (· = 1) moves_setSuper).skip fun _ => spec_look fun s => ?_
          refine Spec.bind (spec_setInode (ref (.inode i)) (fun _ _ => rfl) fun m r h hcount => ?_)
            fun _ => Spec.ret (fun _ _ => trivial) rfl
          rw [← hcount, h.1]

end

end Linux011.Path
