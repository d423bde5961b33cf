import Mathlib.Algebra.BigOperators.Group.Finset.Piecewise
import Linux011.Fs.InodeRuns
import Linux011.Lib.Inevitable

/-!
# `get_empty_inode` after a change of disks

`invalidate_inodes` of `fs/inode.c` beside the calls of `Fs/InodeTable`, and whether
`get_empty_inode` comes to an end. It has to write a dirty slot back before it can take it, and
`write_inode` does nothing for an inode without a device. `invalidate_inodes` takes the device away
from inodes that are in use, and who holds such an inode may make it dirty afterwards.
-/

namespace Linux011.Fs

/-- The device that an operation looks an inode up on. -/
def InodeOp.HasDev : InodeOp → Prop
  | .search dev _ => dev ≠ 0
  | .found _ dev _ => dev ≠ 0
  | _ => True

/-- The operation ends in giving back the lock of slot `i`. -/
def InodeOp.Locks (i : Nat) : InodeOp → Prop
  | .wrote j => j = i
  | .fetched j => j = i
  | .unlock j => j = i
  | _ => False

/-- How many steps the lock of an operation is held for. -/
def InodeOp.lockSteps : InodeOp → Nat
  | .wrote _ => 2
  | .fetched _ => 2
  | .unlock _ => 1
  | _ => 0

def ITask.Locks (T : ITask) (i : Nat) : Prop :=
  ∃ op rest, T.ops = op :: rest ∧ op.Locks i

namespace ITable

/-! ## A dirty inode has a device -/

/-- A lock has a task that gives it back, and only an inode of a device is dirty. -/
structure Sound (s : ITable) : Prop where
  dirt : ∀ i, (s.inode i).iDirt = true → (s.inode i).iDev ≠ 0
  lock : ∀ i, (s.inode i).iLock = true → ∃ t < nrTasks, (s.task t).Locks i
  ops : ∀ t, ∀ op ∈ (s.task t).ops, op.HasDev
  devs : ∀ sb ∈ s.superBlock, sb.2 ≠ 0

variable {s s' : ITable} {t i : Nat} {rest : List InodeOp} {op : InodeOp}

theorem inode_setInode (n : MInode) (j : Nat) : (s.setInode i n).inode j = if j = i then n else s.inode j := by
  by_cases hj : j = i
  · rw [hj, if_pos rfl]
    exact Function.update_self ..
  · rw [if_neg hj]
    exact Function.update_of_ne hj ..

theorem task_setTask (T : ITask) (u : Nat) : (s.setTask t T).task u = if u = t then T else s.task u := by
  by_cases hu : u = t
  · rw [hu, if_pos rfl]
    exact Function.update_self ..
  · rw [if_neg hu]
    exact Function.update_of_ne hu ..

/-- One task moves, and one slot changes. -/
theorem Sound.set (h : s.Sound) (ht : t < nrTasks) {n : MInode} {T : ITask}
    (hdirt : n.iDirt = true → n.iDev ≠ 0)
    (hlock : n.iLock = true → (s.inode i).iLock = true ∧ ¬ (s.task t).Locks i ∨ T.Locks i)
    (hother : ∀ j, j ≠ i → (s.task t).Locks j → T.Locks j)
    (hops : ∀ op ∈ T.ops, op.HasDev) : ((s.setInode i n).setTask t T).Sound := by
  -- Whoever else has a lock goes on having it.
  have hkeep : ∀ j u, u < nrTasks → (s.task u).Locks j → (u = t → T.Locks j) →
      ∃ u < nrTasks, (((s.setInode i n).setTask t T).task u).Locks j := by
    intro j u hu hl hT
    refine ⟨u, hu, ?_⟩
    rw [task_setTask]
    split
    · next heq => exact hT heq
    · exact hl
  refine ⟨fun j hj => ?_, fun j hj => ?_, fun u op hop => ?_, h.devs⟩
  · change ((s.setInode i n).inode j).iDirt = true at hj
    change ((s.setInode i n).inode j).iDev ≠ 0
    rw [inode_setInode] at hj ⊢
    split
    · next heq => exact hdirt (by rwa [if_pos heq] at hj)
    · next hne => exact h.dirt j (by rwa [if_neg hne] at hj)
  · change ((s.setInode i n).inode j).iLock = true at hj
    rw [inode_setInode] at hj
    by_cases heq : j = i
    · subst heq
      rw [if_pos rfl] at hj
      rcases hlock hj with ⟨hold, hnot⟩ | hT
      · obtain ⟨u, hu, hl⟩ := h.lock j hold
        exact hkeep j u hu hl fun hut => absurd (hut ▸ hl) hnot
      · exact ⟨t, ht, by rwa [task_setTask, if_pos rfl]⟩
    · rw [if_neg heq] at hj
      obtain ⟨u, hu, hl⟩ := h.lock j hj
      exact hkeep j u hu hl fun hut => hother j heq (hut ▸ hl)
  · rw [task_setTask] at hop
    split at hop
    · exact hops op hop
    · exact h.ops u op hop

theorem setInode_inode (s : ITable) (i : Nat) : s.setInode i (s.inode i) = s := by
  rw [setInode, Function.update_eq_self]

/-- One task moves that has no lock. -/
theorem Sound.setTask (h : s.Sound) (ht : t < nrTasks) {T : ITask} (hfree : ∀ j, ¬ (s.task t).Locks j)
    (hops : ∀ op ∈ T.ops, op.HasDev) : (s.setTask t T).Sound := by
  have hset := h.set (i := 0) (n := s.inode 0) ht (h.dirt 0) (fun hl => .inl ⟨hl, hfree 0⟩)
    (fun j _ hj => absurd hj (hfree j)) hops
  rwa [setInode_inode] at hset

/-- The fields that `Sound` is about. -/
theorem Sound.congr (h : s.Sound) (hinode : s'.inode = s.inode) (htask : s'.task = s.task)
    (hsuper : s'.superBlock = s.superBlock) : s'.Sound := by
  obtain ⟨hdirt, hlock, hops, hdevs⟩ := h
  rw [← hinode] at hdirt hlock
  rw [← htask] at hlock hops
  rw [← hsuper] at hdevs
  exact ⟨hdirt, hlock, hops, hdevs⟩

/-! ## The operations keep it -/

theorem locks_iff (hops : (s.task t).ops = op :: rest) (j : Nat) : (s.task t).Locks j ↔ op.Locks j := by
  constructor
  · rintro ⟨op', rest', hops', hl⟩
    cases hops.symm.trans hops'
    exact hl
  · exact fun hl => ⟨op, rest, hops, hl⟩

/-- One task without a lock moves, and the inode of one slot does not become dirty. -/
theorem Sound.quiet (h : s.Sound) (ht : t < nrTasks) {n : MInode} {T : ITask}
    (hfree : ∀ j, ¬ (s.task t).Locks j)
    (hdirt : n.iDirt = true → (s.inode i).iDirt = true ∧ n.iDev = (s.inode i).iDev)
    (hlock : n.iLock = true → (s.inode i).iLock = true) (hops : ∀ op ∈ T.ops, op.HasDev) :
    ((s.setInode i n).setTask t T).Sound := by
  apply h.set ht
  · intro hn
    obtain ⟨hold, hdev⟩ := hdirt hn
    rw [hdev]
    exact h.dirt i hold
  · exact fun hn => .inl ⟨hlock hn, hfree i⟩
  · exact fun j _ hj => absurd hj (hfree j)
  · exact hops

section Ops

variable (h : s.Sound) (ht : t < nrTasks) (hfree : ∀ j, ¬ (s.task t).Locks j)
  (hrest : ∀ op ∈ rest, op.HasDev)

include h ht hfree hrest

theorem sound_goOn (ops : List InodeOp) (hops : ∀ op ∈ ops, op.HasDev) : (s.goOn t (ops ++ rest)).Sound := by
  apply h.setTask ht hfree
  intro op hop
  rcases List.mem_append.mp hop with hin | hin
  · exact hops op hin
  · exact hrest op hin

theorem sound_rest : (s.goOn t rest).Sound :=
  sound_goOn h ht hfree hrest [] (by simp)

theorem sound_setCount (n : Nat) : ((s.setCount i n).goOn t rest).Sound :=
  h.quiet ht hfree (fun hd => ⟨hd, rfl⟩) id hrest

theorem sound_iputAgain : (s.iputAgain t i rest).Sound := by
  unfold iputAgain
  dsimp only
  split
  · exact sound_setCount h ht hfree hrest _
  · split
    · exact sound_goOn h ht hfree hrest [.free i] (by simp [InodeOp.HasDev])
    · split
      · exact sound_goOn h ht hfree hrest [.write i, .waitOn i, .again i] (by simp [InodeOp.HasDev])
      · exact sound_setCount h ht hfree hrest _

theorem sound_iput (hr : s.iput t i rest = .ok s') : s'.Sound := by
  unfold iput at hr
  dsimp only at hr
  split at hr
  · cases hr
  · split at hr
    · split at hr
      · cases hr
        exact sound_setCount h ht hfree hrest _
      · cases hr
        exact h.quiet ht hfree (by simp) id hrest
    · split at hr
      · cases hr
        exact sound_setCount h ht hfree hrest _
      · split at hr
        · cases hr
          exact sound_goOn h ht hfree hrest [.syncInodes 0, .waitOn i, .again i]
            (by simp [InodeOp.HasDev])
        · cases hr
          exact sound_iputAgain h ht hfree hrest

theorem sound_zero : ((s.setInode i .zero).goOn t rest).Sound :=
  h.quiet ht hfree (by simp [MInode.zero]) (by simp [MInode.zero]) hrest

theorem sound_freeInode (hr : s.freeInode t i rest = .ok s') : s'.Sound := by
  unfold freeInode at hr
  dsimp only at hr
  split at hr
  · cases hr
    exact sound_zero h ht hfree hrest
  · split at hr
    · cases hr
    · split at hr
      · cases hr
      · cases hr
        exact sound_zero h ht hfree hrest

theorem sound_writeInode : (s.writeInode t i rest).Sound := by
  unfold writeInode
  dsimp only
  split
  · exact sound_rest h ht hfree hrest
  · refine h.set ht (h.dirt i) (fun _ => .inr ⟨_, _, rfl, rfl⟩) (fun j _ hj => absurd hj (hfree j)) ?_
    simpa [InodeOp.HasDev] using hrest

theorem sound_getEmptyInode (hr : s.getEmptyInode t rest = .ok s') : s'.Sound := by
  unfold getEmptyInode at hr
  split at hr
  · cases hr
  · next i last _ =>
    cases hr
    have hgo := sound_goOn h ht hfree hrest [.waitOn i, .clean i] (by simp [InodeOp.HasDev])
    exact hgo.congr rfl rfl rfl

theorem sound_clean : (s.clean t i rest).Sound := by
  unfold clean
  split
  · exact sound_goOn h ht hfree hrest [.write i, .waitOn i, .clean i] (by simp [InodeOp.HasDev])
  · split
    · exact sound_goOn h ht hfree hrest [.getEmpty] (by simp [InodeOp.HasDev])
    · exact h.quiet ht hfree (by simp [MInode.zero]) (by simp [MInode.zero]) hrest

theorem sound_igetDone : (s.igetDone t i rest).Sound := by
  unfold igetDone
  split
  · exact sound_goOn h ht hfree hrest [.ret (some i)] (by simp [InodeOp.HasDev])
  · next e _ =>
    refine h.setTask ht hfree ?_
    simpa [InodeOp.HasDev] using hrest

theorem sound_igetSearch {dev nr : BitVec 16} (hdev : dev ≠ 0) : (s.igetSearch t dev nr rest).Sound := by
  unfold igetSearch
  split
  · next i _ =>
    exact sound_goOn h ht hfree hrest [.waitOn i, .found i dev nr] (by simpa [InodeOp.HasDev] using hdev)
  · split
    · exact sound_goOn h ht hfree hrest [.ret none] (by simp [InodeOp.HasDev])
    · next e _ =>
      refine h.set ht (fun _ => hdev) (fun hl => .inl ⟨hl, hfree e⟩) (fun j _ hj => absurd hj (hfree j)) ?_
      simpa [InodeOp.HasDev] using hrest

theorem sound_igetFound {dev nr : BitVec 16} (hdev : dev ≠ 0) : (s.igetFound t i dev nr rest).Sound := by
  unfold igetFound
  split
  · exact sound_goOn h ht hfree hrest [.search dev nr] (by simpa [InodeOp.HasDev] using hdev)
  · -- The reference that the search has found is counted first.
    have hcount : (s.setCount i ((s.inode i).iCount + 1)).Sound := by
      have hset := h.quiet (i := i) (n := { s.inode i with iCount := (s.inode i).iCount + 1 }) (T := s.task t)
        ht hfree (fun hd => ⟨hd, rfl⟩) id (h.ops t)
      refine hset.congr rfl ?_ rfl
      exact (Function.update_eq_self t _).symm
    dsimp only
    split
    · split
      · exact sound_igetDone hcount ht hfree hrest
      · next sb hsb =>
        have hsuper : sb.2 ≠ 0 := h.devs sb (List.mem_of_find?_eq_some hsb)
        exact sound_goOn hcount ht hfree hrest [.waitOn i, .iput i, .search sb.2 rootIno]
          (by simpa [InodeOp.HasDev] using hsuper)
    · exact sound_igetDone hcount ht hfree hrest

end Ops

theorem Sound.runOp (h : s.Sound) (ht : t < nrTasks) (hops : (s.task t).ops = op :: rest) {d : DInode}
    (hr : s.runOp t d rest op = some (.ok s')) : s'.Sound := by
  have hall : ∀ o ∈ op :: rest, o.HasDev := hops ▸ h.ops t
  have hdev : op.HasDev := hall op List.mem_cons_self
  have hrest : ∀ o ∈ rest, o.HasDev := fun o ho => hall o (List.mem_cons_of_mem op ho)
  -- The lock that a task has is the one that its next operation drops.
  have hlocks := locks_iff hops
  cases op with
  | waitOn i =>
    have hfree : ∀ j, ¬ (s.task t).Locks j := fun j hj => (hlocks j).mp hj
    simp only [ITable.runOp] at hr
    split at hr
    · cases hr
    · cases hr
      exact sound_rest h ht hfree hrest
  | iput i => exact sound_iput h ht (fun j hj => (hlocks j).mp hj) hrest (Option.some.inj hr)
  | again i =>
    cases hr
    exact sound_iputAgain h ht (fun j hj => (hlocks j).mp hj) hrest
  | free i => exact sound_freeInode h ht (fun j hj => (hlocks j).mp hj) hrest (Option.some.inj hr)
  | syncInodes k =>
    cases hr
    unfold ITable.syncInodes
    split
    · exact sound_goOn h ht (fun j hj => (hlocks j).mp hj) hrest
        [.waitOn k, .syncOne k, .syncInodes (k + 1)] (by simp [InodeOp.HasDev])
    · exact sound_rest h ht (fun j hj => (hlocks j).mp hj) hrest
  | syncOne k =>
    cases hr
    unfold ITable.syncOne
    split
    · exact sound_goOn h ht (fun j hj => (hlocks j).mp hj) hrest [.write k] (by simp [InodeOp.HasDev])
    · exact sound_rest h ht (fun j hj => (hlocks j).mp hj) hrest
  | write i =>
    simp only [ITable.runOp] at hr
    split at hr
    · cases hr
    · next hlock =>
      cases hr
      exact sound_writeInode h ht (fun j hj => (hlocks j).mp hj) hrest
  | wrote i =>
    cases hr
    refine h.set ht (by simp) (fun _ => .inr ⟨_, _, rfl, rfl⟩) (fun j hne hj => ?_) ?_
    · exact absurd ((hlocks j).mp hj).symm hne
    · simpa [InodeOp.HasDev] using hrest
  | unlock i =>
    cases hr
    refine h.set ht (h.dirt i) (by simp) (fun j hne hj => ?_) hrest
    exact absurd ((hlocks j).mp hj).symm hne
  | getEmpty => exact sound_getEmptyInode h ht (fun j hj => (hlocks j).mp hj) hrest (Option.some.inj hr)
  | clean i =>
    cases hr
    exact sound_clean h ht (fun j hj => (hlocks j).mp hj) hrest
  | search dev nr =>
    cases hr
    exact sound_igetSearch h ht (fun j hj => (hlocks j).mp hj) hrest hdev
  | found i dev nr =>
    cases hr
    exact sound_igetFound h ht (fun j hj => (hlocks j).mp hj) hrest hdev
  | read i =>
    simp only [ITable.runOp] at hr
    split at hr
    · cases hr
    · cases hr
      refine h.set ht (h.dirt i) (fun _ => .inr ⟨_, _, rfl, rfl⟩) (fun j _ hj => ((hlocks j).mp hj).elim) ?_
      simpa [InodeOp.HasDev] using hrest
  | fetched i =>
    cases hr
    refine h.set ht (h.dirt i) (fun _ => .inr ⟨_, _, rfl, rfl⟩) (fun j hne hj => ?_) ?_
    · exact absurd ((hlocks j).mp hj).symm hne
    · simpa [InodeOp.HasDev] using hrest
  | ret o => cases hr

/-- Whatever a task does, if it does not make an inode dirty that has no device. -/
theorem Sound.step {e : InodeEvent} (h : s.Sound) (hstep : Step s e (.ok s'))
    (htouch : ∀ t i, e = .touch t i → (s'.inode i).iDirt = true → (s.inode i).iDev ≠ 0) : s'.Sound := by
  generalize hr : Except.ok s' = r at hstep
  -- A task between two calls has no lock.
  have hidle : ∀ {t : Nat}, (s.task t).ops = [] → ∀ j, ¬ (s.task t).Locks j := by
    rintro t hnil j ⟨op, rest, hops, -⟩
    rw [hnil] at hops
    cases hops
  cases hstep with
  | @iget t dev nr ht hops =>
    split at hr
    · cases hr
    · next hdev =>
      cases hr
      exact h.setTask ht (hidle hops) (by simpa [InodeOp.HasDev] using hdev)
  | @iput t i ht hops hi =>
    cases hr
    have hset := h.setTask (T := ⟨[.waitOn i, .iput i], none, none⟩) ht (hidle hops) (by simp [InodeOp.HasDev])
    exact hset.congr rfl rfl rfl
  | sync ht hops =>
    cases hr
    exact h.setTask ht (hidle hops) (by simp [InodeOp.HasDev])
  | run ht hops hrun => exact h.runOp ht hops (hr ▸ hrun)
  | @returned t o ht hops =>
    cases hr
    have hfree : ∀ j, ¬ (s.task t).Locks j := fun j hj => (locks_iff hops j).mp hj
    have hset := h.setTask (T := ⟨[], none, none⟩) ht hfree (by simp)
    cases o with
    | none => exact hset
    | some i => exact hset.congr rfl rfl rfl
  | @touch t i d dirt ht hi =>
    cases hr
    have hdev := htouch t i rfl
    rw [inode_setInode, if_pos rfl] at hdev
    refine ⟨fun j hj => ?_, fun j hj => h.lock j ?_, h.ops, h.devs⟩
    · rw [inode_setInode] at hj ⊢
      split
      · exact hdev (by rwa [if_pos ‹_›] at hj)
      · exact h.dirt j (by rwa [if_neg ‹_›] at hj)
    · rw [inode_setInode] at hj
      split at hj
      · next heq => exact heq ▸ hj
      · exact hj
  | @dup t i ht hi =>
    cases hr
    refine ⟨fun j hj => ?_, fun j hj => h.lock j ?_, h.ops, h.devs⟩
    · change ((s.setCount i _).inode j).iDirt = true at hj
      change ((s.setCount i _).inode j).iDev ≠ 0
      rw [setCount, inode_setInode] at hj ⊢
      split
      · exact h.dirt i (by rwa [if_pos ‹_›] at hj)
      · exact h.dirt j (by rwa [if_neg ‹_›] at hj)
    · change ((s.setCount i _).inode j).iLock = true at hj
      rw [setCount, inode_setInode] at hj
      split at hj
      · next heq => exact heq ▸ hj
      · exact hj

/-! ## The choice -/

/-- `if (++last_inode >= inode_table + NR_INODE) last_inode = inode_table;` -/
def nextInode (last : Nat) : Nat :=
  if nrInode ≤ last + 1 then 0 else last + 1

theorem nextInode_lt (last : Nat) : nextInode last < nrInode := by
  unfold nextInode
  split
  · decide
  · omega

theorem nextInode_iterate (last m : Nat) : nextInode^[m + 1] last = (nextInode last + m) % nrInode := by
  have hlt := nextInode_lt last
  induction m with
  | zero => exact (Nat.mod_eq_of_lt hlt).symm
  | succ m ih =>
    rw [Function.iterate_succ_apply', ih]
    unfold nrInode at hlt ⊢
    by_cases hend : nrInode ≤ (nextInode last + m) % 32 + 1
    · rw [nextInode, if_pos hend]
      unfold nrInode at hend
      omega
    · rw [nextInode, if_neg hend]
      unfold nrInode at hend
      omega

/-- The search comes to every slot. -/
theorem nextInode_surj (last : Nat) {i : Nat} (hi : i < nrInode) : ∃ m < nrInode, nextInode^[m + 1] last = i := by
  refine ⟨(i + nrInode - nextInode last) % nrInode, Nat.mod_lt _ (by decide), ?_⟩
  have hlt := nextInode_lt last
  rw [nextInode_iterate]
  simp only [nrInode] at hi hlt ⊢
  omega

theorem pick_succ (k last : Nat) (inode : Option Nat) : s.pick (k + 1) last inode =
    if (s.inode (nextInode last)).iCount = 0 then
      if !(s.inode (nextInode last)).iDirt && !(s.inode (nextInode last)).iLock then
        (some (nextInode last), nextInode last)
      else s.pick k (nextInode last) (some (nextInode last))
    else s.pick k (nextInode last) inode := rfl

theorem pick_some {k last l : Nat} {inode : Option Nat}
    (hin : ∀ j, inode = some j → j < nrInode ∧ (s.inode j).iCount = 0)
    (h : s.pick k last inode = (some i, l)) : i < nrInode ∧ (s.inode i).iCount = 0 := by
  induction k generalizing last inode with
  | zero =>
    cases h
    exact hin i rfl
  | succ k ih =>
    rw [pick_succ] at h
    split at h
    · next hfree =>
      split at h
      · cases h
        exact ⟨nextInode_lt last, hfree⟩
      · refine ih (fun j hj => ?_) h
        cases hj
        exact ⟨nextInode_lt last, hfree⟩
    · exact ih hin h

theorem pick_none {k last l : Nat} {inode : Option Nat} (h : s.pick k last inode = (none, l)) :
    inode = none ∧ ∀ m < k, (s.inode (nextInode^[m + 1] last)).iCount ≠ 0 := by
  induction k generalizing last inode with
  | zero =>
    cases h
    exact ⟨rfl, fun m hm => absurd hm (Nat.not_lt_zero m)⟩
  | succ k ih =>
    rw [pick_succ] at h
    split at h
    · split at h
      · cases h
      · cases (ih h).1
    · next hused =>
      obtain ⟨hnone, hrest⟩ := ih h
      refine ⟨hnone, fun m hm => ?_⟩
      cases m with
      | zero => exact hused
      | succ m => exact hrest m (by omega)

/-- The only slot that is not in use is the choice. -/
theorem pick_only (last : Nat) (hi : i < nrInode) (hfree : (s.inode i).iCount = 0)
    (hused : ∀ j, j ≠ i → (s.inode j).iCount ≠ 0) : ∃ l, s.pick nrInode last none = (some i, l) := by
  cases hpick : s.pick nrInode last none with
  | mk o l =>
    cases o with
    | none =>
      obtain ⟨m, hm, hmi⟩ := nextInode_surj last hi
      exact absurd (hmi ▸ hfree) ((pick_none hpick).2 m hm)
    | some j =>
      have hj := (pick_some (fun k hk => by cases hk) hpick).2
      have hji : j = i := not_not.mp fun hne => hused j hne hj
      exact ⟨l, by rw [hji]⟩

/-! ## `get_empty_inode` comes to an end -/

/-- A step of `t`, or a step of another task that is about to give back a lock. -/
inductive Alone (t : Nat) : Except String ITable → Except String ITable → Prop
  | own {s : ITable} {op : InodeOp} {rest : List InodeOp} {d : DInode} {r : Except String ITable}
      (hops : (s.task t).ops = op :: rest) (hr : s.runOp t d rest op = some r) : Alone t (.ok s) r
  | other {s : ITable} {u i : Nat} {op : InodeOp} {rest : List InodeOp} {d : DInode}
      {r : Except String ITable} (hu : u < nrTasks) (hne : u ≠ t) (hops : (s.task u).ops = op :: rest)
      (hl : op.Locks i) (hr : s.runOp u d rest op = some r) : Alone t (.ok s) r

/-- What `get_empty_inode` is to come to, when it begins in `s`: a slot that is cleared, or a panic because
each slot is in use. -/
def Emptied (s : ITable) (t : Nat) (rest : List InodeOp) : Except String ITable → Prop
  | .ok s' => (s'.task t).ops = rest ∧
      ∃ i < nrInode, (s'.task t).empty = some i ∧ s'.inode i = { MInode.zero with iCount := 1 }
  | .error _ => ∀ i < nrInode, (s.inode i).iCount ≠ 0

/-- Where `t` is in `get_empty_inode`, once it has chosen slot `i`. -/
inductive Cleaning (s : ITable) (t i : Nat) (rest : List InodeOp) : Prop
  | chosen (hops : (s.task t).ops = .waitOn i :: .clean i :: rest)
  | look (hops : (s.task t).ops = .clean i :: rest)
  | write (hops : (s.task t).ops = .write i :: .waitOn i :: .clean i :: rest)
  | wrote (hops : (s.task t).ops = .wrote i :: .waitOn i :: .clean i :: rest)
  | unlock (hops : (s.task t).ops = .unlock i :: .waitOn i :: .clean i :: rest)
      (hclean : (s.inode i).iDirt = false)

/-- A bound on the steps that `t` still has to take. A dirty slot costs a `write_inode`. -/
def ownSteps (s : ITable) (t : Nat) : Nat :=
  match (s.task t).ops with
  | .getEmpty :: _ => 10
  | .waitOn i :: _ => if (s.inode i).iDirt then 9 else 4
  | .clean i :: _ => if (s.inode i).iDirt then 8 else 3
  | .write i :: _ => if (s.inode i).iDirt then 7 else 5
  | .wrote _ :: _ => 6
  | .unlock _ :: _ => 5
  | _ => 0

/-- How many steps of other tasks with a lock there can be. -/
def otherSteps (s : ITable) (t : Nat) : Nat :=
  ∑ u ∈ (Finset.range nrTasks).erase t, ((s.task u).ops.map InodeOp.lockSteps).sum

/-- `t` is in `get_empty_inode`, and nobody has taken a slot since `s`. -/
structure Emptying (s : ITable) (t : Nat) (rest : List InodeOp) (s' : ITable) : Prop where
  sound : s'.Sound
  count : ∀ i, (s'.inode i).iCount = (s.inode i).iCount
  place : (s'.task t).ops = .getEmpty :: rest ∨ ∃ i < nrInode, (s'.inode i).iCount = 0 ∧ s'.Cleaning t i rest

/-- The steps of a task that has a lock. -/
theorem runOp_locks {u j : Nat} {d : DInode} {r : Except String ITable} (hl : op.Locks j)
    (hr : s.runOp u d rest op = some r) : ∃ n ops, r = .ok ((s.setInode j n).goOn u ops) ∧
      n.iCount = (s.inode j).iCount ∧ (n.iDirt = true → (s.inode j).iDirt = true) ∧
      (ops.map InodeOp.lockSteps).sum < ((op :: rest).map InodeOp.lockSteps).sum := by
  cases op with
  | wrote i =>
    cases hl
    cases hr
    exact ⟨_, _, rfl, rfl, by simp, by simp [InodeOp.lockSteps]⟩
  | fetched i =>
    cases hl
    cases hr
    exact ⟨_, _, rfl, rfl, id, by simp [InodeOp.lockSteps]⟩
  | unlock i =>
    cases hl
    cases hr
    exact ⟨_, _, rfl, rfl, id, by simp [InodeOp.lockSteps]⟩
  | _ => exact hl.elim

variable {s₁ : ITable}

/-- Another task gives back its lock. -/
theorem Emptying.other (h : s.Emptying t rest s') {u j : Nat} {op : InodeOp} {ops : List InodeOp} {d : DInode}
    {r : Except String ITable} (hu : u < nrTasks) (hne : u ≠ t) (hops : (s'.task u).ops = op :: ops)
    (hl : op.Locks j) (hr : s'.runOp u d ops op = some r) : ∃ s₁, r = .ok s₁ ∧ s.Emptying t rest s₁ ∧
      s₁.ownSteps t + s₁.otherSteps t < s'.ownSteps t + s'.otherSteps t := by
  obtain ⟨n, ops', rfl, hcount, hdirt, hless⟩ := runOp_locks hl hr
  have htask : ((s'.setInode j n).goOn u ops').task t = s'.task t := by
    rw [goOn, task_setTask, if_neg hne.symm]
    rfl
  have hinode : ∀ i, (((s'.setInode j n).goOn u ops').inode i).iCount = (s'.inode i).iCount ∧
      ((((s'.setInode j n).goOn u ops').inode i).iDirt = true → (s'.inode i).iDirt = true) := by
    intro i
    change ((s'.setInode j n).inode i).iCount = _ ∧ (((s'.setInode j n).inode i).iDirt = true → _)
    rw [inode_setInode]
    split
    · next heq => exact heq ▸ ⟨hcount, hdirt⟩
    · exact ⟨rfl, id⟩
  refine ⟨_, rfl, ⟨h.sound.runOp hu hops hr, fun i => (hinode i).1.trans (h.count i), ?_⟩, ?_⟩
  · rw [htask]
    refine h.place.imp_right ?_
    rintro ⟨i, hi, hfree, hc⟩
    refine ⟨i, hi, (hinode i).1.trans hfree, ?_⟩
    cases hc with
    | chosen hops => exact .chosen (htask ▸ hops)
    | look hops => exact .look (htask ▸ hops)
    | write hops => exact .write (htask ▸ hops)
    | wrote hops => exact .wrote (htask ▸ hops)
    | unlock hops hclean =>
      refine .unlock (htask ▸ hops) (Bool.eq_false_iff.mpr fun hd => ?_)
      rw [(hinode i).2 hd] at hclean
      cases hclean
  · have hown : ((s'.setInode j n).goOn u ops').ownSteps t ≤ s'.ownSteps t := by
      unfold ownSteps
      rw [htask]
      have hcost : ∀ i (a b : Nat), b ≤ a → (if (((s'.setInode j n).goOn u ops').inode i).iDirt = true then a else b) ≤
          if (s'.inode i).iDirt = true then a else b := by
        intro i a b hab
        split
        · next hd => rw [if_pos ((hinode i).2 hd)]
        · split
          · exact hab
          · exact le_rfl
      split
      · exact le_rfl
      · exact hcost _ 9 4 (by decide)
      · exact hcost _ 8 3 (by decide)
      · exact hcost _ 7 5 (by decide)
      · exact le_rfl
      · exact le_rfl
      · exact le_rfl
    have hother : ((s'.setInode j n).goOn u ops').otherSteps t < s'.otherSteps t := by
      apply Finset.sum_lt_sum
      · intro v _
        rw [goOn, task_setTask]
        split
        · next heq =>
          rw [heq, hops]
          exact hless.le
        · exact le_rfl
      · refine ⟨u, Finset.mem_erase.mpr ⟨hne, Finset.mem_range.mpr hu⟩, ?_⟩
        rw [goOn, task_setTask, if_pos rfl, hops]
        exact hless
    omega

theorem otherSteps_setTask (T : ITask) : (s.setTask t T).otherSteps t = s.otherSteps t := by
  refine Finset.sum_congr rfl fun u hu => ?_
  rw [task_setTask, if_neg (Finset.ne_of_mem_erase hu)]

/-- The task goes on to the next place, and nobody takes a slot. -/
theorem Emptying.move (h : s.Emptying t rest s') (hi : i < nrInode) (hfree : (s'.inode i).iCount = 0)
    {n : MInode} {T : ITask} (hn : n.iCount = (s'.inode i).iCount)
    (hsound : ((s'.setInode i n).setTask t T).Sound)
    (hplace : ((s'.setInode i n).setTask t T).Cleaning t i rest)
    (hless : ((s'.setInode i n).setTask t T).ownSteps t < s'.ownSteps t) :
    ∃ s₁, (.ok ((s'.setInode i n).setTask t T) : Except String ITable) = .ok s₁ ∧ s.Emptying t rest s₁ ∧
      s₁.ownSteps t + s₁.otherSteps t < s'.ownSteps t + s'.otherSteps t := by
  have hcount : ∀ j, (((s'.setInode i n).setTask t T).inode j).iCount = (s'.inode j).iCount := by
    intro j
    change ((s'.setInode i n).inode j).iCount = _
    rw [inode_setInode]
    split
    · next heq => rw [heq, hn]
    · rfl
  refine ⟨_, rfl, ⟨hsound, fun j => (hcount j).trans (h.count j), .inr ⟨i, hi, ?_, hplace⟩⟩, ?_⟩
  · rw [hcount, hfree]
  · rw [otherSteps_setTask]
    exact Nat.add_lt_add_right hless _

/-- The table is searched: it is full, or a free slot is chosen. -/
theorem Emptying.search (h : s.Emptying t rest s') (hops : (s'.task t).ops = .getEmpty :: rest)
    (hsound : ∀ s₁, s'.getEmptyInode t rest = .ok s₁ → s₁.Sound) :
    s.Emptied t rest (s'.getEmptyInode t rest) ∨ ∃ s₁, s'.getEmptyInode t rest = .ok s₁ ∧ s.Emptying t rest s₁ ∧
      s₁.ownSteps t + s₁.otherSteps t < s'.ownSteps t + s'.otherSteps t := by
  unfold getEmptyInode at hsound ⊢
  split
  · next last hpick =>
    refine .inl fun i hi => ?_
    obtain ⟨m, hm, hmi⟩ := nextInode_surj s'.lastInode hi
    rw [← h.count, ← hmi]
    exact (pick_none hpick).2 m hm
  · next i last hpick =>
    obtain ⟨hi, hfree⟩ := pick_some (fun j hj => by cases hj) hpick
    rw [hpick] at hsound
    refine .inr ⟨_, rfl, ⟨hsound _ rfl, h.count, .inr ⟨i, hi, hfree, .chosen ?_⟩⟩, ?_⟩
    · rw [goOn, task_setTask, if_pos rfl]
    · have hother : ({ s' with lastInode := last }.goOn t (.waitOn i :: .clean i :: rest)).otherSteps t =
          s'.otherSteps t := otherSteps_setTask _
      have hold : s'.ownSteps t = 10 := by simp only [ownSteps, hops]
      have hnew : ({ s' with lastInode := last }.goOn t (.waitOn i :: .clean i :: rest)).ownSteps t ≤ 9 := by
        unfold ownSteps
        rw [goOn, task_setTask, if_pos rfl]
        dsimp only
        split <;> decide
      omega

theorem Emptying.own (h : s.Emptying t rest s') (ht : t < nrTasks) {op : InodeOp} {ops : List InodeOp}
    {d : DInode} {r : Except String ITable} (hops : (s'.task t).ops = op :: ops)
    (hr : s'.runOp t d ops op = some r) : s.Emptied t rest r ∨ ∃ s₁, r = .ok s₁ ∧ s.Emptying t rest s₁ ∧
      s₁.ownSteps t + s₁.otherSteps t < s'.ownSteps t + s'.otherSteps t := by
  have hnext : ∀ T : ITask, (s'.setTask t T).task t = T := fun T => by rw [task_setTask, if_pos rfl]
  have hsound : ∀ s₁, r = .ok s₁ → s₁.Sound := fun s₁ heq => h.sound.runOp ht hops (hr.trans (congrArg some heq))
  -- Where only the task moves, the slot is written back as it is.
  have hstay : ∀ i < nrInode, (s'.inode i).iCount = 0 → ∀ T, r = .ok (s'.setTask t T) →
      (s'.setTask t T).Cleaning t i rest → (s'.setTask t T).ownSteps t < s'.ownSteps t →
      ∃ s₁, r = .ok s₁ ∧ s.Emptying t rest s₁ ∧
        s₁.ownSteps t + s₁.otherSteps t < s'.ownSteps t + s'.otherSteps t := by
    intro i hi hfree T heq hplace hless
    have hmove := h.move (n := s'.inode i) (T := T) hi hfree rfl
    rw [setInode_inode] at hmove
    rw [heq]
    exact hmove (hsound _ heq) hplace hless
  rcases h.place with hempty | ⟨i, hi, hfree, hc⟩
  · cases hops.symm.trans hempty
    change some (s'.getEmptyInode t rest) = some r at hr
    cases hr
    exact h.search hops hsound
  · cases hc with
    | chosen hchosen =>
      cases hops.symm.trans hchosen
      simp only [runOp] at hr
      split at hr
      · cases hr
      · cases hr
        refine .inr (hstay i hi hfree _ rfl (.look (by rw [hnext])) ?_)
        simp only [ownSteps, hops, hnext]
        change (if (s'.inode i).iDirt = true then 8 else 3) < _
        split <;> decide
    | look hlook =>
      cases hops.symm.trans hlook
      change some (Except.ok (s'.clean t i rest)) = some r at hr
      by_cases hd : (s'.inode i).iDirt = true
      · rw [clean, if_pos hd] at hr
        cases hr
        refine .inr (hstay i hi hfree _ rfl (.write (by rw [hnext])) ?_)
        simp only [ownSteps, hops, hnext]
        change (if (s'.inode i).iDirt = true then 7 else 5) < _
        rw [if_pos hd, if_pos hd]
        decide
      · rw [clean, if_neg hd, if_neg (not_not.mpr hfree)] at hr
        cases hr
        refine .inl ⟨?_, i, hi, ?_, ?_⟩
        · rw [task_setTask, if_pos rfl]
        · rw [task_setTask, if_pos rfl]
        · exact (inode_setInode _ i).trans (if_pos rfl)
    | write hwrite =>
      cases hops.symm.trans hwrite
      simp only [runOp] at hr
      split at hr
      · cases hr
      · by_cases hd : (s'.inode i).iDirt = true
        · -- The inode has a device, so it is written.
          have hdev : ((!(s'.inode i).iDirt || (s'.inode i).iDev = 0) = true) = False := by
            simpa [hd] using h.sound.dirt i hd
          simp only [writeInode, hdev, if_false] at hr
          cases hr
          refine .inr (h.move hi hfree rfl (hsound _ rfl) (.wrote ?_) ?_)
          · rw [task_setTask, if_pos rfl]
          · simp only [ownSteps, hops, task_setTask, if_pos, if_pos hd]
            decide
        · have hskip : ((!(s'.inode i).iDirt || (s'.inode i).iDev = 0) = true) = True := by simp [hd]
          simp only [writeInode, hskip, if_true] at hr
          cases hr
          refine .inr (hstay i hi hfree _ rfl (.chosen (by rw [hnext])) ?_)
          simp only [ownSteps, hops, hnext]
          change (if (s'.inode i).iDirt = true then 9 else 4) < _
          rw [if_neg hd, if_neg hd]
          decide
    | wrote hwrote =>
      cases hops.symm.trans hwrote
      cases hr
      refine .inr (h.move hi hfree rfl (hsound _ rfl) (.unlock ?_ ?_) ?_)
      · rw [task_setTask, if_pos rfl]
      · exact congrArg MInode.iDirt ((inode_setInode _ i).trans (if_pos rfl))
      · simp only [ownSteps, hops, task_setTask, if_pos]
        decide
    | unlock hunlock hclean =>
      cases hops.symm.trans hunlock
      cases hr
      refine .inr (h.move hi hfree rfl (hsound _ rfl) (.chosen ?_) ?_)
      · rw [task_setTask, if_pos rfl]
      · simp only [ownSteps, hops, task_setTask, if_pos]
        change (if ((s'.setInode i _).inode i).iDirt = true then 9 else 4) < 5
        rw [inode_setInode, if_pos rfl, if_neg (by simp [hclean])]
        decide

/-- From a sound table, `get_empty_inode` comes to an end. -/
theorem Sound.inevitable (h : s.Sound) (ht : t < nrTasks) (hops : (s.task t).ops = .getEmpty :: rest) :
    Lib.Inevitable (Alone t) (s.Emptied t rest) (.ok s) := by
  apply Lib.Inevitable.of_measure (P := fun r => ∃ s', r = .ok s' ∧ s.Emptying t rest s')
    (m := fun r => match r with
      | .ok s' => s'.ownSteps t + s'.otherSteps t
      | .error _ => 0)
  · rintro r ⟨s', rfl, h'⟩ -
    -- A task that finds a lock waits for the one that has it.
    have hwait : ∀ i op ops, (s'.task t).ops = op :: ops → (∀ j, ¬ op.Locks j) → (s'.inode i).iLock = true →
        ∃ r, Alone t (.ok s') r := by
      intro i op ops hops hfree hl
      obtain ⟨u, hu, o, os, hou, hlock⟩ := h'.sound.lock i hl
      have hne : u ≠ t := by
        intro heq
        rw [heq, hops] at hou
        cases hou
        exact hfree i hlock
      have hrun : ∃ r, s'.runOp u ⟨0, 0⟩ os o = some r := by
        cases o with
        | wrote _ => exact ⟨_, rfl⟩
        | fetched _ => exact ⟨_, rfl⟩
        | unlock _ => exact ⟨_, rfl⟩
        | _ => exact hlock.elim
      obtain ⟨r, hr⟩ := hrun
      exact ⟨r, .other hu hne hou hlock hr⟩
    rcases h'.place with hempty | ⟨i, -, -, hc⟩
    · exact ⟨_, .own (d := ⟨0, 0⟩) hempty rfl⟩
    · cases hc with
      | chosen hchosen =>
        by_cases hl : (s'.inode i).iLock = true
        · exact hwait i _ _ hchosen (fun _ => id) hl
        · exact ⟨_, .own (d := ⟨0, 0⟩) hchosen (if_neg hl)⟩
      | look hlook => exact ⟨_, .own (d := ⟨0, 0⟩) hlook rfl⟩
      | write hwrite =>
        by_cases hl : (s'.inode i).iLock = true
        · exact hwait i _ _ hwrite (fun _ => id) hl
        · exact ⟨_, .own (d := ⟨0, 0⟩) hwrite (if_neg hl)⟩
      | wrote hwrote => exact ⟨_, .own (d := ⟨0, 0⟩) hwrote rfl⟩
      | unlock hunlock _ => exact ⟨_, .own (d := ⟨0, 0⟩) hunlock rfl⟩
  · rintro r r' ⟨s', rfl, h'⟩ - hstep
    generalize hr : Except.ok s' = r at hstep
    cases hstep with
    | own hops hrun =>
      cases hr
      rcases h'.own ht hops hrun with hdone | ⟨s₁, rfl, h₁, hless⟩
      · exact .inl hdone
      · exact .inr ⟨⟨s₁, rfl, h₁⟩, hless⟩
    | other hu hne hops hl hrun =>
      cases hr
      obtain ⟨s₁, rfl, h₁, hless⟩ := h'.other hu hne hops hl hrun
      exact .inr ⟨⟨s₁, rfl, h₁⟩, hless⟩
  · exact ⟨s, rfl, h, fun _ => rfl, .inl hops⟩

/-- If the choice is a dirty inode without a device, `get_empty_inode` goes round for ever. -/
theorem not_inevitable (hops : (s.task t).ops = .getEmpty :: rest) {l : Nat}
    (hpick : s.pick nrInode s.lastInode none = (some i, l)) (hdirt : (s.inode i).iDirt = true)
    (hdev : (s.inode i).iDev = 0) (hlock : (s.inode i).iLock = false) :
    ¬ Lib.Inevitable (Alone t) (s.Emptied t rest) (.ok s) := by
  apply Lib.Inevitable.not_of_loop (K := fun r => ∃ s', r = .ok s' ∧ s'.inode = s.inode ∧
    (s' = s ∨ (s'.task t).ops = .waitOn i :: .clean i :: rest ∨ (s'.task t).ops = .clean i :: rest ∨
      (s'.task t).ops = .write i :: .waitOn i :: .clean i :: rest))
  · rintro r ⟨s', rfl, hinode, hplace⟩
    constructor
    · rintro ⟨hrest, -⟩
      have hlength := congrArg List.length hrest
      rcases hplace with rfl | h | h | h
      · rw [hops] at hlength
        exact absurd hlength (Nat.succ_ne_self _)
      all_goals
        rw [h] at hlength
        simp only [List.length_cons] at hlength
        omega
    · have hnext : ∀ T : ITask, (s'.setTask t T).task t = T := fun T => by rw [task_setTask, if_pos rfl]
      have d : DInode := ⟨0, 0⟩
      rcases hplace with rfl | h | h | h
      · refine ⟨_, .own (d := d) hops rfl, { s' with lastInode := l }.goOn t (.waitOn i :: .clean i :: rest), ?_,
          rfl, .inr (.inl ?_)⟩
        · unfold getEmptyInode
          rw [hpick]
        · rw [goOn, task_setTask, if_pos rfl]
      · refine ⟨_, .own (d := d) h (if_neg ?_), _, rfl, hinode, .inr (.inr (.inl ?_))⟩
        · rw [hinode, hlock]
          decide
        · rw [goOn, hnext]
      · refine ⟨_, .own (d := d) h rfl, _, rfl, ?_, .inr (.inr (.inr ?_))⟩
        · rw [clean, hinode, if_pos hdirt]
          exact hinode
        · rw [clean, hinode, if_pos hdirt, goOn, hnext]
      · have hskip : ((!(s'.inode i).iDirt || (s'.inode i).iDev = 0) = true) = True := by simp [hinode, hdev]
        refine ⟨_, .own (d := d) h (if_neg ?_), _, rfl, ?_, .inr (.inl ?_)⟩
        · rw [hinode, hlock]
          decide
        · simp only [writeInode, hskip, if_true]
          exact hinode
        · simp only [writeInode, hskip, if_true]
          rw [goOn, hnext]
  · exact ⟨s, rfl, rfl, .inl rfl⟩

end ITable

/-! ## Changes of disks -/

namespace MInode

/-- The body of the loop of `invalidate_inodes`. -/
def invalidate (dev : BitVec 16) (n : MInode) : MInode :=
  if n.iDev = dev then { n with iDev := 0, iDirt := false } else n

end MInode

/-- The inode table, and the calls of `invalidate_inodes` with the slot that each has come to. -/
structure ChangingTable where
  table : ITable
  invalidating : Nat → Option (BitVec 16 × Nat)

inductive ChangeEvent where
  | op (e : ITable.InodeEvent)
  | invalidateInodes (t : Nat) (dev : BitVec 16)
  | next (t : Nat)

def ITable.InodeEvent.task : ITable.InodeEvent → Nat
  | .iget t _ _ => t
  | .iput t _ => t
  | .sync t => t
  | .run t => t
  | .returned t _ => t
  | .touch t _ => t
  | .dup t _ => t

namespace ChangingTable

def setCall (s : ChangingTable) (t : Nat) (c : Option (BitVec 16 × Nat)) : ChangingTable :=
  { s with invalidating := Function.update s.invalidating t c }

inductive Step : ChangingTable → ChangeEvent → Except String ChangingTable → Prop
  | op {s : ChangingTable} {e : ITable.InodeEvent} {r : Except String ITable} (hstep : ITable.Step s.table e r)
      (hidle : s.invalidating e.task = none) : Step s (.op e) (r.map fun table => { s with table })
  | invalidateInodes {s : ChangingTable} {t : Nat} {dev : BitVec 16} (ht : t < nrTasks)
      (hops : (s.table.task t).ops = []) (hidle : s.invalidating t = none) :
      Step s (.invalidateInodes t dev) (.ok (s.setCall t (some (dev, 0))))
  | next {s : ChangingTable} {t i : Nat} {dev : BitVec 16} (hcall : s.invalidating t = some (dev, i))
      (hi : i < nrInode) (hlock : (s.table.inode i).iLock = false) : Step s (.next t) (.ok
        ({ s with table := s.table.setInode i ((s.table.inode i).invalidate dev) }.setCall t (some (dev, i + 1))))
  | last {s : ChangingTable} {t i : Nat} {dev : BitVec 16} (hcall : s.invalidating t = some (dev, i))
      (hi : nrInode ≤ i) : Step s (.next t) (.ok (s.setCall t none))

/-- No inode becomes dirty that has no device. -/
def Careful (s : ChangingTable) (e : ChangeEvent) (s' : ChangingTable) : Prop :=
  ∀ t i, e = .op (.touch t i) → (s'.table.inode i).iDirt = true → (s.table.inode i).iDev ≠ 0

variable {s s' : ChangingTable} {t : Nat} {rest : List InodeOp} {es : List ChangeEvent}

theorem invalidating_setCall (c : Option (BitVec 16 × Nat)) (u : Nat) :
    (s.setCall t c).invalidating u = if u = t then c else s.invalidating u := by
  by_cases hu : u = t
  · rw [hu, if_pos rfl]
    exact Function.update_self ..
  · rw [if_neg hu]
    exact Function.update_of_ne hu ..

theorem Step.sound {e : ChangeEvent} (h : s.table.Sound) (hstep : Step s e (.ok s')) (hcareful : Careful s e s') :
    s'.table.Sound := by
  generalize hr : Except.ok s' = r at hstep
  cases hstep with
  | @op e r₀ hstep hidle =>
    cases r₀ with
    | error m => cases hr
    | ok T =>
      cases hr
      exact h.step hstep fun t i he => hcareful t i (congrArg ChangeEvent.op he)
  | invalidateInodes => cases hr; exact h
  | @next t i dev hcall hi hlock =>
    cases hr
    refine ⟨fun j hj => ?_, fun j hj => h.lock j ?_, h.ops, h.devs⟩
    · change ((s.table.setInode i _).inode j).iDirt = true at hj
      change ((s.table.setInode i _).inode j).iDev ≠ 0
      rw [ITable.inode_setInode] at hj ⊢
      split
      · rw [if_pos ‹_›, MInode.invalidate] at hj
        rw [MInode.invalidate]
        split
        · rw [if_pos ‹_›] at hj
          cases hj
        · rw [if_neg ‹_›] at hj
          exact h.dirt i hj
      · rw [if_neg ‹_›] at hj
        exact h.dirt j hj
    · change ((s.table.setInode i _).inode j).iLock = true at hj
      rw [ITable.inode_setInode] at hj
      split at hj
      · next heq =>
        rw [heq]
        rw [MInode.invalidate] at hj
        split at hj <;> exact hj
      · exact hj
  | last => cases hr; exact h

/-- Nobody has called anything yet. The inodes that are in use may be dirty, if they have a device. -/
structure Start (s : ChangingTable) : Prop where
  table : ∃ kept, s.table.Start kept
  lock : ∀ i, (s.table.inode i).iLock = false
  dirt : ∀ i, (s.table.inode i).iDirt = true → (s.table.inode i).iDev ≠ 0
  invalidating : ∀ t, s.invalidating t = none

theorem Start.sound (h : s.Start) : s.table.Sound := by
  obtain ⟨kept, htable⟩ := h.table
  refine ⟨h.dirt, fun i hi => ?_, fun t op hop => ?_, htable.devs⟩
  · rw [h.lock i] at hi
    cases hi
  · rw [htable.idle t] at hop
    cases hop

/-- In any run in which nobody makes an inode dirty that has no device, `get_empty_inode` comes to an end
wherever it begins: with a slot that is cleared, or, if all slots are in use, with a panic. -/
theorem getEmptyInode_ends (hstart : s.Start)
    (hrun : Lib.Run (fun s e s' => Step s e (.ok s') ∧ Careful s e s') s es s') (ht : t < nrTasks)
    (hops : (s'.table.task t).ops = .getEmpty :: rest) :
    Lib.Inevitable (ITable.Alone t) (s'.table.Emptied t rest) (.ok s'.table) := by
  have hsound : s'.table.Sound :=
    hrun.inv (I := fun s => s.table.Sound) (fun _ _ _ h hstep => hstep.1.sound h hstep.2) hstart.sound
  exact hsound.inevitable ht hops

/-- A table in which all slots are in use. The inode in slot 0 is on a floppy disk, which is mounted on the
inode in slot 2; task 0 has it. -/
def fullTable : ChangingTable where
  table :=
    { inode := fun i => ⟨⟨0o100644, 1⟩, if i = 0 then 0x208 else 0x301, BitVec.ofNat 16 (i + 1), 1, false, false,
        false, i == 2⟩
      lastInode := 0
      task := fun _ => ⟨[], none, none⟩
      holds := fun t i => if t = 0 then if i = 0 then 1 else 0 else 0
      superBlock := [(1, 0x301), (2, 0x208)] }
  invalidating _ := none

theorem fullTable_start : fullTable.Start := by
  refine ⟨⟨fun i => if i = 0 then 0 else 1, fun _ => rfl, fun i => ?_, fun i j hi hj _ hident => ?_, fun i hi => ?_,
    fun sb hsb => ?_⟩, fun _ => rfl, fun i hi => (nomatch hi), fun _ => rfl⟩
  · change 1 = (∑ t ∈ Finset.range nrTasks, if t = 0 then if i = 0 then 1 else 0 else 0) + if i = 0 then 0 else 1
    rw [Finset.sum_ite_eq', if_pos (by decide)]
    split <;> rfl
  · have hnum : BitVec.ofNat 16 (i + 1) = BitVec.ofNat 16 (j + 1) := congrArg Prod.snd hident
    have hnat := congrArg BitVec.toNat hnum
    unfold nrInode at hi hj
    rw [BitVec.toNat_ofNat, BitVec.toNat_ofNat] at hnat
    omega
  · have h2 : i = 2 := beq_iff_eq.mp hi
    subst h2
    exact ⟨by decide, by decide⟩
  · rcases List.mem_cons.mp hsb with rfl | hsb
    · decide
    · cases List.mem_singleton.mp hsb
      decide

/-- Task 0 makes its inode dirty, and task 2 asks for another one. There is no slot for it. -/
theorem getEmptyInode_ends_full : ∃ s : ChangingTable,
    (s.table.task 2).ops = [.getEmpty, .search 0x301 7] ∧ (s.table.inode 0).iDirt = true ∧
    Lib.Inevitable (ITable.Alone 2) (s.table.Emptied 2 [.search 0x301 7]) (.ok s.table) := by
  have h₁ : Step fullTable (.op (.touch 0 0)) _ :=
    .op (@ITable.Step.touch _ 0 0 ⟨0o100644, 1⟩ true (by decide) (by decide)) rfl
  obtain ⟨s₁, hs₁, hinode, hinvalidating, htask⟩ : ∃ s₁, Step fullTable (.op (.touch 0 0)) (.ok s₁) ∧
      (s₁.table.inode 0).iDirt = true ∧ s₁.invalidating = (fun _ => none) ∧ (s₁.table.task 2).ops = [] :=
    ⟨_, h₁, rfl, rfl, rfl⟩
  have h₂ : Step s₁ (.op (.iget 2 0x301 7)) (.ok { s₁ with
      table := s₁.table.setTask 2 (.mk [.getEmpty, .search 0x301 7] none (some (0x301, 7))) }) :=
    .op (.iget (by decide) htask) (by rw [hinvalidating])
  refine ⟨_, ?_, ?_, getEmptyInode_ends fullTable_start (.snoc (.snoc .nil ⟨hs₁, fun t i he _ => ?_⟩)
    ⟨h₂, fun t i he => by cases he⟩) (by decide) ?_⟩
  · rw [ITable.task_setTask, if_pos rfl]
  · exact hinode
  · cases he
    decide
  · rw [ITable.task_setTask, if_pos rfl]

/-- `invalidate_inodes` goes past the slots of other devices. -/
theorem invalidate_others {dev : BitVec 16} (n : Nat) {i : Nat} (hn : nrInode ≤ i + n)
    (hcall : s.invalidating t = some (dev, i))
    (hother : ∀ j, i ≤ j → j < nrInode → (s.table.inode j).iDev ≠ dev ∧ (s.table.inode j).iLock = false)
    {s₀ : ChangingTable} (hrun : Lib.Run (fun s e s' => Step s e (.ok s')) s₀ es s) :
    ∃ es, Lib.Run (fun s e s' => Step s e (.ok s')) s₀ es (s.setCall t none) := by
  induction n generalizing s i es with
  | zero => exact ⟨_, hrun.snoc (.last hcall hn)⟩
  | succ n ih =>
    by_cases hi : i < nrInode
    · obtain ⟨hdev, hlock⟩ := hother i le_rfl hi
      have hsame : s.table.setInode i ((s.table.inode i).invalidate dev) = s.table := by
        rw [MInode.invalidate, if_neg hdev, ITable.setInode_inode]
      have hstep := Step.next hcall hi hlock
      rw [hsame] at hstep
      obtain ⟨es', hrun'⟩ := ih (s := s.setCall t (some (dev, i + 1))) (i := i + 1) (by omega)
        (by rw [invalidating_setCall, if_pos rfl]) (fun j hj => hother j (by omega)) (hrun.snoc hstep)
      refine ⟨es', ?_⟩
      have hcalls : (s.setCall t (some (dev, i + 1))).setCall t none = s.setCall t none := by
        rw [setCall, setCall, setCall, Function.update_idem]
      rwa [hcalls] at hrun'
    · exact ⟨_, hrun.snoc (.last hcall (Nat.le_of_not_lt hi))⟩

theorem run_op {e : ITable.InodeEvent} {s₀ : ChangingTable} {T : ITable}
    (hrun : Lib.Run (fun s e s' => Step s e (.ok s')) s₀ es s) (hstep : ITable.Step s.table e (.ok T))
    (hidle : s.invalidating e.task = none) :
    Lib.Run (fun s e s' => Step s e (.ok s')) s₀ (es ++ [.op e]) { s with table := T } :=
  hrun.snoc (.op hstep hidle)

/-- The floppy disk is changed, and then task 0 makes its inode dirty and gives it back. The slot is the only one
that is not in use, and task 2 tries to write it back for ever. -/
theorem getEmptyInode_loops : ∃ (s : ChangingTable) (es : List ChangeEvent) (rest : List InodeOp),
    Lib.Run (fun s e s' => Step s e (.ok s')) fullTable es s ∧ (s.table.task 2).ops = .getEmpty :: rest ∧
    ¬ Lib.Inevitable (ITable.Alone 2) (s.table.Emptied 2 rest) (.ok s.table) := by
  obtain ⟨s₁, h₁, s₂, h₂, hcall, hcalls, hother, htable⟩ : ∃ s₁, Step fullTable (.invalidateInodes 1 0x208) (.ok s₁) ∧
      ∃ s₂, Step s₁ (.next 1) (.ok s₂) ∧ s₂.invalidating 1 = some (0x208, 1) ∧
      (∀ t, t ≠ 1 → s₂.invalidating t = none) ∧
      (∀ j, 1 ≤ j → j < nrInode → (s₂.table.inode j).iDev ≠ 0x208 ∧ (s₂.table.inode j).iLock = false) ∧
      s₂.table = fullTable.table.setInode 0 ((fullTable.table.inode 0).invalidate 0x208) := by
    refine ⟨_, .invalidateInodes (by decide) rfl rfl, _, .next rfl (by decide) rfl, rfl, fun t ht => ?_,
      fun j hj _ => ?_, rfl⟩
    · exact (Function.update_of_ne ht ..).trans (Function.update_of_ne ht ..)
    · have hne : j ≠ 0 := by omega
      change ((fullTable.table.setInode 0 _).inode j).iDev ≠ 0x208 ∧
        ((fullTable.table.setInode 0 _).inode j).iLock = false
      rw [ITable.inode_setInode, if_neg hne]
      change (if j = 0 then 0x208 else 0x301) ≠ (0x208 : BitVec 16) ∧ false = false
      rw [if_neg hne]
      exact ⟨by decide, rfl⟩
  obtain ⟨es₃, h₃⟩ := invalidate_others nrInode (i := 1) (by decide) hcall hother (.snoc (.snoc .nil h₁) h₂)
  -- What the other two tasks do to the table.
  obtain ⟨T₄, h₄, T₅, h₅, T₆, h₆, T₇, h₇, T₈, h₈, hops, hfree, hused, hdirt, hdev, hlock⟩ :
      ∃ T₄, ITable.Step s₂.table (.touch 0 0) (.ok T₄) ∧ ∃ T₅, ITable.Step T₄ (.iput 0 0) (.ok T₅) ∧
      ∃ T₆, ITable.Step T₅ (.run 0) (.ok T₆) ∧ ∃ T₇, ITable.Step T₆ (.run 0) (.ok T₇) ∧
      ∃ T₈, ITable.Step T₇ (.iget 2 0x301 7) (.ok T₈) ∧ (T₈.task 2).ops = [.getEmpty, .search 0x301 7] ∧
      (T₈.inode 0).iCount = 0 ∧ (∀ j, j ≠ 0 → (T₈.inode j).iCount ≠ 0) ∧ (T₈.inode 0).iDirt = true ∧
      (T₈.inode 0).iDev = 0 ∧ (T₈.inode 0).iLock = false := by
    rw [htable]
    refine ⟨_, @ITable.Step.touch _ 0 0 ⟨0o100644, 1⟩ true (by decide) (by decide), _, .iput (by decide) rfl Nat.one_pos,
      _, .cast (.run (d := ⟨0o100644, 1⟩) (by decide) rfl rfl) rfl, _, .cast (.run (d := ⟨0o100644, 1⟩) (by decide) rfl rfl) rfl,
      _, .cast (.iget (by decide) rfl) rfl, rfl, rfl, fun j hj => ?_, rfl, rfl, rfl⟩
    -- The slot has changed three times, and no other has.
    refine (congrArg MInode.iCount ((Function.update_of_ne hj ..).trans ((Function.update_of_ne hj ..).trans
      (Function.update_of_ne hj ..)))).trans_ne ?_
    exact Nat.one_ne_zero
  have hidle : ∀ t, (s₂.setCall 1 none).invalidating t = none := by
    intro t
    rw [invalidating_setCall]
    split
    · rfl
    · next ht => exact hcalls t ht
  obtain ⟨l, hpick⟩ := ITable.pick_only T₈.lastInode (by decide) hfree hused
  have hrun₄ := run_op h₃ h₄ (hidle 0)
  have hrun₅ := run_op hrun₄ h₅ (hidle 0)
  have hrun₆ := run_op hrun₅ h₆ (hidle 0)
  have hrun₇ := run_op hrun₆ h₇ (hidle 0)
  have hrun := run_op hrun₇ h₈ (hidle 2)
  exact ⟨_, _, _, hrun, hops, ITable.not_inevitable hops hpick hdirt hdev hlock⟩

end ChangingTable

end Linux011.Fs
