import Linux011.Fs.EmptyInode
import Linux011.Path.Tables

/-!
# The inode table of a calm system

`write_inode`, `read_inode`, `iput`, `get_empty_inode` and `iget` return, and the tables stand for the same
files as before.
-/

namespace Linux011.Path

open Linux011.Fs Linux011.Lib

variable {V : View} {i : Nat} {r r' : Nat → Nat} {q : Key → Nat} {s : State} {m : Machine}

namespace Backed

/-! ## One slot -/

/-- A slot keeps its file. If it is made clean, the disk has the inode. -/
theorem setInode {g : MInode → MInode} (h : Backed V r q m.state)
    (hslot : i < nrInode → Slot V i (r' i) (g (m.state.inode i))) (hr : ∀ j, j ≠ i → r' j = r j)
    (hnode : (g (m.state.inode i)).node = (m.state.inode i).node)
    (hdirt : ∀ k, V.start.getSuper (m.state.inode i).iDev = some k → (g (m.state.inode i)).iDirt = false →
      (m.state.inode i).iDirt = true → m.state.diskInode k (m.state.inode i).node = V.files.file (m.state.inode i).node) :
    Backed V r' q (m.setInode i g).state := by
  have hnodes (j : Nat) : ((m.setInode i g).state.inode j).node = (m.state.inode j).node := by
    show (Function.update m.state.inode i _ j).node = _
    rcases eq_or_ne j i with rfl | hne
    · rw [Function.update_self, hnode]
    · rw [Function.update_of_ne hne]
  refine { h with frame := ?_, slot := ?_, unique := ?_, disk := ?_, unmounted := ?_ }
  · have hframe := congrArg
      (fun s : State => { s with inode := Function.update m.state.inode i (g (m.state.inode i)) }) h.frame
    exact hframe
  · intro j hj
    show Slot V j (r' j) (Function.update m.state.inode i _ j)
    rcases eq_or_ne j i with rfl | hne
    · rw [Function.update_self]
      exact hslot hj
    · rw [Function.update_of_ne hne, hr j hne]
      exact h.slot j hj
  · intro a ha b hb hdev heq
    rw [hnodes, hnodes] at heq
    refine h.unique a ha b hb ?_ heq
    have hdevs : ((m.setInode i g).state.inode a).iDev = (m.state.inode a).iDev := congrArg Prod.fst (hnodes a)
    rw [← hdevs]
    exact hdev
  · intro n k hk hn hclean
    show m.state.diskInode k n = _
    by_cases hnow : (m.state.inode i).node = n ∧ (m.state.inode i).iDirt = true ∧ i < nrInode
    · obtain ⟨rfl, hold, hi⟩ := hnow
      have hnew := hclean i hi (hnodes i)
      change (Function.update m.state.inode i _ i).iDirt = false at hnew
      rw [Function.update_self] at hnew
      exact hdirt k hk hnew hold
    · refine h.disk n k hk hn fun j hj hjn => ?_
      have hj' := hclean j hj ((hnodes j).trans hjn)
      change (Function.update m.state.inode i _ j).iDirt = false at hj'
      rcases eq_or_ne j i with rfl | hne
      · simpa [hjn, hj] using hnow
      · rw [Function.update_of_ne hne] at hj'
        exact hj'
  · intro n hn hnone
    exact h.unmounted n hn fun j hj hjn => hnone j hj ((hnodes j).trans hjn)

/-- A change of the slot that none of the invariants looks at. -/
theorem lockSlot (h : Backed V r q m.state) (lock : Bool) :
    Backed V r q (m.setInode i fun n => { n with iLock := lock }).state := by
  refine h.setInode (fun hi => ?_) (fun _ _ => rfl) rfl fun _ _ hclean hdirt => ?_
  · have hslot := h.slot i hi
    exact { hslot with }
  · rw [hdirt] at hclean
    cases hclean

/-! ## `write_inode` -/

theorem numIndex_inj {a b : Nat} (ha : a < 2 ^ 16) (hb : b < 2 ^ 16) (h : numIndex a = numIndex b) : a = b := by
  unfold numIndex at h
  omega

/-- The inode of a slot goes to the buffer of its block. -/
theorem written {k : Nat} {n : MInode} (h : Backed V r q m.state) (hi : i < nrInode) (hn : m.state.inode i = n)
    (hdirt : n.iDirt = true) (hk : V.start.getSuper n.iDev = some k)
    (hq : q (n.iDev, inodeBlock (V.start.superBlock k) n.iNum) ≠ 0) :
    let c' := (m.state.cache n.iDev).modify (inodeBlock (V.start.superBlock k) n.iNum)
      (putDInode n (numIndex n.iNum % 32))
    Backed V r q (m.setCache n.iDev c').state ∧
      (m.setCache n.iDev c').state.diskInode k n.node = V.files.file n.node := by
  intro c'
  have hslot : Slot V i (r i) n := hn ▸ h.slot i hi
  have hcopy := hslot.copy k hk
  have hfits : n.stored.Fits := hcopy ▸ V.files.fits _
  have hup := h.uptodate _ _ hq
  have hwrote := Cache.modify_spec (putDInode n (numIndex n.iNum % 32)) hup
  obtain ⟨k', hk', hblock⟩ := hslot.dirty hdirt
  rw [hk, Option.some.injEq] at hk'
  subst hk'
  have hself : (m.setCache n.iDev c').state.cache n.iDev = c' := Function.update_self ..
  have hother (d : Nat) (hd : d ≠ n.iDev) : (m.setCache n.iDev c').state.cache d = m.state.cache d :=
    Function.update_of_ne hd ..
  -- the blocks but the one with the inode
  have hkeep (d b : Nat) (hb : d = n.iDev → b ≠ inodeBlock (V.start.superBlock k) n.iNum) :
      ((m.setCache n.iDev c').state.cache d).contents b = (m.state.cache d).contents b := by
    by_cases hd : d = n.iDev
    · rw [hd, hself, hwrote.contents, Function.update_of_ne (hb hd)]
    · rw [hother d hd]
  have hcell (j : Nat) (n₀ : MInode) : (getDInode (((m.setCache n.iDev c').state.cache n.iDev).contents
      (inodeBlock (V.start.superBlock k) n.iNum)) j n₀).stored = (getDInode (putDInode n (numIndex n.iNum % 32)
        ((m.state.cache n.iDev).contents (inodeBlock (V.start.superBlock k) n.iNum))) j n₀).stored := by
    rw [hself, hwrote.contents, Function.update_self]
  have hsuper : (m.setCache n.iDev c').state.superBlock = V.start.superBlock := h.superBlock
  refine ⟨{ h with frame := ?_, bufs := ?_, uptodate := ?_, works := ?_, coherent := ?_, disk := ?_, data := ?_ }, ?_⟩
  · have hframe := congrArg (fun s : State => { s with cache := Function.update m.state.cache n.iDev c' }) h.frame
    exact hframe
  · rw [bufs_same hwrote.held, h.bufs]
  · intro d b hqd
    by_cases hd : d = n.iDev
    · rw [hd, hself]
      exact hwrote.uptodate b (h.uptodate n.iDev b (hd ▸ hqd))
    · rw [hother d hd]
      exact h.uptodate d b hqd
  · intro d b
    by_cases hd : d = n.iDev
    · rw [hd, hself, hwrote.works]
      exact h.works n.iDev b
    · rw [hother d hd]
      exact h.works d b
  · intro d
    by_cases hd : d = n.iDev
    · rw [hd, hself]
      exact hwrote.coherent (h.coherent n.iDev)
    · rw [hother d hd]
      exact h.coherent d
  · intro n' k' hk' hn' hclean
    have hne : n' ≠ n.node := by
      intro heq
      have hcl := hclean i hi (by rw [heq]; exact congrArg MInode.node hn)
      have hin : (m.setCache n.iDev c').state.inode i = n := hn
      rw [hin, hdirt] at hcl
      cases hcl
    rw [← h.disk n' k' hk' hn' hclean]
    unfold State.diskInode
    rw [hsuper, h.superBlock]
    by_cases hsame : n'.1 = n.iDev ∧
        inodeBlock (V.start.superBlock k') n'.2 = inodeBlock (V.start.superBlock k) n.iNum
    · obtain ⟨hd, hb⟩ := hsame
      have hkk : k' = k := by
        rw [hd, hk, Option.some.injEq] at hk'
        exact hk'.symm
      subst hkk
      have hidx : numIndex n'.2 % 32 ≠ numIndex n.iNum % 32 := by
        intro hmod
        have hdiv : numIndex n'.2 / 32 = numIndex n.iNum / 32 := by
          unfold inodeBlock at hb
          omega
        have hnum := numIndex_inj hn' hslot.num (by omega)
        exact hne (Prod.ext hd hnum)
      rw [hd, hb, hcell, stored_put_other hidx]
    · rw [hkeep n'.1 _ fun hd hb => hsame ⟨hd, hb⟩]
  · intro d k' b hk' hb
    rw [hkeep d b, h.data d k' b hk' hb]
    intro hd hb'
    rw [hd, hk, Option.some.injEq] at hk'
    subst hk'
    omega
  · unfold State.diskInode
    rw [hsuper]
    exact (hcell _ _).trans ((stored_put hfits _).trans hcopy)

/-- A slot is made clean. -/
theorem cleanSlot (h : Backed V r q m.state)
    (hdisk : ∀ k, V.start.getSuper (m.state.inode i).iDev = some k →
      m.state.diskInode k (m.state.inode i).node = V.files.file (m.state.inode i).node) :
    Backed V r q (m.setInode i fun n => { n with iDirt := false }).state := by
  refine h.setInode (fun hi => ?_) (fun _ _ => rfl) rfl fun k hk _ _ => hdisk k hk
  have hslot := h.slot i hi
  exact { hslot with dirty := fun hfalse => by cases hfalse }

end Backed

theorem waitOnInode_eq (hlock : (m.state.inode i).iLock = false) : waitOnInode i m = .ok () m := by
  have hrun : waitOnInode i m = (if (m.state.inode i).iLock then throw .hang else return : Call Unit) m := rfl
  rw [hrun, hlock]
  rfl

theorem lockInode_eq (hlock : (m.state.inode i).iLock = false) :
    lockInode i m = .ok () (m.setInode i fun n => { n with iLock := true }) := by
  show EStateM.bind (waitOnInode i) _ m = _
  rw [EStateM.bind, waitOnInode_eq hlock]
  rfl

namespace Stands

theorem writeInode (h : Stands V r q m.state) (hi : i < nrInode) :
    Runs (Path.writeInode i) m fun _ s =>
      Stands V r q s ∧ s.inode = Function.update m.state.inode i { m.state.inode i with iDirt := false } := by
  -- the states in which it ends
  have hend {m' : Machine} (h' : Backed V r q m'.state)
      (hin : m'.state.inode = Function.update m.state.inode i { m.state.inode i with iDirt := false, iLock := true }) :
      Runs (Path.unlockInode i) m' fun _ s =>
        Stands V r q s ∧ s.inode = Function.update m.state.inode i { m.state.inode i with iDirt := false } := by
    have hin' : (m'.setInode i fun n => { n with iLock := false }).state.inode =
        Function.update m.state.inode i { m.state.inode i with iDirt := false } := by
      show Function.update m'.state.inode i { m'.state.inode i with iLock := false } = _
      rw [hin, Function.update_self, Function.update_idem, ← h.unlocked i hi]
    have hlocks : ∀ j < nrInode, ((m'.setInode i fun n => { n with iLock := false }).state.inode j).iLock = false := by
      intro j hj
      rw [hin']
      rcases eq_or_ne j i with rfl | hne
      · rw [Function.update_self]
        exact h.unlocked j hj
      · rw [Function.update_of_ne hne]
        exact h.unlocked j hj
    exact ⟨⟨h'.lockSlot false, hlocks⟩, hin'⟩
  unfold Path.writeInode
  refine runs_ok (lockInode_eq (h.unlocked i hi)) ?_
  have h₁ := h.toBacked.lockSlot (i := i) true
  generalize hm₁ : (m.setInode i fun n => { n with iLock := true }) = m₁ at h₁ ⊢
  have hin₁ : m₁.state.inode = Function.update m.state.inode i { m.state.inode i with iLock := true } := hm₁ ▸ rfl
  have hn : m₁.state.inode i = { m.state.inode i with iLock := true } := by rw [hin₁, Function.update_self]
  refine runs_look ?_
  rw [hn]
  by_cases hdirt : (m.state.inode i).iDirt = true
  · obtain ⟨k, hk, hblock⟩ := (h.slot i hi).dirty hdirt
    have hdev : (m.state.inode i).iDev ≠ 0 := by
      intro hzero
      rw [hzero] at hk
      cases hk
    rw [if_neg (by simp [hdirt, hdev])]
    refine runs_look ?_
    simp only [h₁.getSuper, hk]
    refine runs_look ?_
    simp only [h₁.superBlock]
    refine (h₁.bread _ _).bind fun got m₂ hret => ?_
    obtain ⟨hgot, h₂, hin₂⟩ := hret
    subst hgot
    rw [if_pos rfl]
    have hn₂ : m₂.state.inode i = { m.state.inode i with iLock := true } := by rw [hin₂, hn]
    obtain ⟨h₃, hdisk⟩ := h₂.written hi hn₂ hdirt hk (by simp)
    refine runs_ok rfl (runs_setInode ?_)
    refine (Backed.brelse (h₃.cleanSlot fun k' hk' => ?_)).bind fun _ m₄ hret => hend hret.1 ?_
    · change V.start.getSuper (m₂.state.inode i).iDev = some k' at hk'
      rw [hn₂, hk, Option.some.injEq] at hk'
      subst hk'
      show State.diskInode _ k (m₂.state.inode i).node = V.files.file (m₂.state.inode i).node
      rw [hn₂]
      exact hdisk
    · rw [hret.2]
      show Function.update m₂.state.inode i { m₂.state.inode i with iDirt := false } = _
      rw [hn₂, hin₂, hin₁, Function.update_idem]
  · have hclean : (m.state.inode i).iDirt = false := by simpa using hdirt
    rw [if_pos (by simp [hclean])]
    refine hend h₁ ?_
    rw [hin₁, ← hclean]

end Stands

/-! ## `read_inode` -/

/-- A slot that is just taken. -/
def MInode.taken : MInode := { MInode.zero with iCount := 1 }

/-- The slot of a file that is just loaded. -/
def State.loaded (s : State) (k : Nat) (n : Node) : MInode :=
  getDInode ((s.cache n.1).contents (inodeBlock (s.superBlock k) n.2)) (numIndex n.2 % 32)
    { MInode.taken with iDev := n.1, iNum := n.2 }

namespace Backed

/-- A slot that is just taken gets a file that is in no other slot. -/
theorem load (h : Backed V r q m.state) {n : Node} {k : Nat} (hi : i < nrInode) (hin : m.state.inode i = .taken)
    (hbase : V.base i = 0) (hk : V.start.getSuper n.1 = some k) (hn : n.2 < 2 ^ 16)
    (hnone : ∀ j < nrInode, (m.state.inode j).node ≠ n) :
    Backed V r q (m.setInode i fun _ => m.state.loaded k n).state := by
  have hdev : n.1 ≠ 0 := by
    intro hzero
    rw [hzero] at hk
    cases hk
  have hfile : m.state.diskInode k n = V.files.file n :=
    h.disk n k hk hn fun j hj hjn => (hnone j hj hjn).elim
  have hslot := h.slot i hi
  have hcount : (m.state.inode i).iCount = 1 := by rw [hin]; rfl
  have hself : (m.setInode i fun _ => m.state.loaded k n).state.inode i = m.state.loaded k n :=
    Function.update_self ..
  have hother (j : Nat) (hj : j ≠ i) :
      (m.setInode i fun _ => m.state.loaded k n).state.inode j = m.state.inode j := Function.update_of_ne hj ..
  refine { h with frame := ?_, slot := ?_, unique := ?_, disk := ?_, unmounted := ?_ }
  · have hframe := congrArg
      (fun s : State => { s with inode := Function.update m.state.inode i (m.state.loaded k n) }) h.frame
    exact hframe
  · intro j hj
    rcases eq_or_ne j i with rfl | hne
    · rw [hself]
      refine ⟨?_, fun hb => (hb hbase).elim, fun hp => (by cases hp), hn, fun _ _ => ⟨k, hk⟩, fun hd => (by cases hd),
        fun k' hk' => ?_, fun _ => ?_, fun hm => (by cases hm)⟩
      · exact hcount.symm.trans hslot.count
      · change V.start.getSuper n.1 = some k' at hk'
        exact hfile
      · exact h.unmounted n hdev hnone
    · rw [hother j hne]
      exact h.slot j hj
  · intro a ha b hb hadev heq
    rcases eq_or_ne a i with rfl | hai
    · rcases eq_or_ne b a with rfl | hba
      · rfl
      · rw [hself, hother b hba] at heq
        exact (hnone b hb heq.symm).elim
    · rw [hother a hai] at heq hadev
      rcases eq_or_ne b i with rfl | hbi
      · rw [hself] at heq
        exact (hnone a ha heq).elim
      · rw [hother b hbi] at heq
        exact h.unique a ha b hb hadev heq
  · intro n' k' hk' hn' hclean
    refine h.disk n' k' hk' hn' fun j hj hjn => ?_
    rcases eq_or_ne j i with rfl | hne
    · rw [hin]
      rfl
    · have hj' := hclean j hj (by rw [hother j hne]; exact hjn)
      rw [hother j hne] at hj'
      exact hj'
  · intro n' hn' hnone'
    refine h.unmounted n' hn' fun j hj hjn => ?_
    rcases eq_or_ne j i with rfl | hne
    · rw [hin] at hjn
      exact hn' (congrArg Prod.fst hjn).symm
    · exact hnone' j hj (by rw [hother j hne]; exact hjn)

end Backed

namespace Stands

/-- `read_inode`, for a slot that is just taken. -/
theorem readInode (h : Stands V r q m.state) {n : Node} {k : Nat} (hi : i < nrInode)
    (hin : m.state.inode i = .taken) (hbase : V.base i = 0) (hk : V.start.getSuper n.1 = some k) (hn : n.2 < 2 ^ 16)
    (hnone : ∀ j < nrInode, (m.state.inode j).node ≠ n) :
    Runs (Path.readInode i) (m.setInode i fun n' => { n' with iDev := n.1, iNum := n.2 }) fun _ s =>
      Stands V r q s ∧ s.inode = Function.update m.state.inode i (m.state.loaded k n) := by
  have hlock {n' : MInode} (hn' : n' = { MInode.taken with iDev := n.1, iNum := n.2 }) : n'.iLock = false := by
    rw [hn']
    rfl
  have hin₁ : (m.setInode i fun n' => { n' with iDev := n.1, iNum := n.2 }).state.inode i =
      { MInode.taken with iDev := n.1, iNum := n.2 } := by
    show Function.update m.state.inode i { m.state.inode i with iDev := n.1, iNum := n.2 } i = _
    rw [Function.update_self, hin]
  unfold Path.readInode
  refine runs_ok (lockInode_eq (hlock hin₁)) (runs_look ?_)
  generalize hm₂ : (m.setInode i fun n' => { n' with iDev := n.1, iNum := n.2 }).setInode i
    (fun n => { n with iLock := true }) = m₂
  have hst₂ : m₂.state = { m.state with
      inode := Function.update m.state.inode i { MInode.taken with iDev := n.1, iNum := n.2, iLock := true } } := by
    have hinodes : Function.update (Function.update m.state.inode i { m.state.inode i with iDev := n.1, iNum := n.2 })
        i { (m.setInode i fun n' => { n' with iDev := n.1, iNum := n.2 }).state.inode i with iLock := true } =
          Function.update m.state.inode i { MInode.taken with iDev := n.1, iNum := n.2, iLock := true } := by
      rw [Function.update_idem, hin₁]
    have hstate := congrArg (fun f => ({ m.state with inode := f } : State)) hinodes
    rw [← hm₂]
    exact hstate
  have hin₂ : m₂.state.inode i = { MInode.taken with iDev := n.1, iNum := n.2, iLock := true } := by
    rw [hst₂]
    exact Function.update_self ..
  rw [hin₂]
  have hsuper : m₂.state.getSuper n.1 = some k := by
    rw [hst₂]
    exact (h.getSuper n.1).trans hk
  have hblock : m₂.state.superBlock = m.state.superBlock := by rw [hst₂]
  have hcache : m₂.state.cache = m.state.cache := by rw [hst₂]
  refine runs_look ?_
  simp only [hsuper]
  refine runs_look ?_
  simp only [hblock]
  obtain ⟨c₁, hrun₁, hsame₁, hup₁, hheld₁⟩ :=
    h.toBacked.bread_eq (m := m₂) (congrFun hcache n.1) (inodeBlock (m.state.superBlock k) n.2)
  have h₁ := h.toBacked.gained hsame₁ hup₁ hheld₁
  refine runs_ok hrun₁ ?_
  rw [if_pos rfl]
  refine runs_look (runs_setInode ?_)
  have hself : (m.setCache n.1 c₁).state.cache n.1 = c₁ := Function.update_self ..
  have hbytes : ((Function.update m₂.state.cache n.1 c₁ n.1).head (inodeBlock (m.state.superBlock k) n.2)).data =
      (m.state.cache n.1).contents (inodeBlock (m.state.superBlock k) n.2) := by
    rw [Function.update_self, ← hsame₁.contents]
    exact (if_pos hup₁).symm
  generalize hm₃ : (m₂.setCache n.1 c₁).setInode i _ = m₃
  have hst₃ : m₃.state = { m.state with
      cache := Function.update m.state.cache n.1 c₁
      inode := Function.update m.state.inode i { m.state.loaded k n with iLock := true } } := by
    have hinodes : Function.update m₂.state.inode i (getDInode
        ((Function.update m₂.state.cache n.1 c₁ n.1).head (inodeBlock (m.state.superBlock k) n.2)).data
        (numIndex n.2 % 32) (m₂.state.inode i)) =
          Function.update m.state.inode i { m.state.loaded k n with iLock := true } := by
      rw [hbytes, hin₂, hst₂, Function.update_idem]
      rfl
    have hstate := congrArg
      (fun f => ({ m₂.state with cache := Function.update m₂.state.cache n.1 c₁, inode := f } : State)) hinodes
    rw [← hm₃]
    refine hstate.trans ?_
    rw [hst₂]
  obtain ⟨c₂, hrun₂, hsame₂, hheld₂⟩ := h₁.brelse_eq (m := m₃) (by rw [hst₃]; rfl)
  refine runs_ok hrun₂ ?_
  have hload := (h₁.lost hsame₂ hheld₂).load hi hin hbase hk hn hnone
  have hloaded : ((m.setCache n.1 c₁).setCache n.1 c₂).state.loaded k n = m.state.loaded k n := by
    have hcontents : (((m.setCache n.1 c₁).setCache n.1 c₂).state.cache n.1).contents =
        (m.state.cache n.1).contents := by
      show (Function.update (m.setCache n.1 c₁).state.cache n.1 c₂ n.1).contents = _
      rw [Function.update_self, hsame₂.contents, hself, hsame₁.contents]
    unfold State.loaded
    rw [hcontents]
    rfl
  have hst : ((m₃.setCache n.1 c₂).setInode i fun n => { n with iLock := false }).state =
      (((m.setCache n.1 c₁).setCache n.1 c₂).setInode i fun _ => m.state.loaded k n).state := by
    have hinodes : Function.update m₃.state.inode i { m₃.state.inode i with iLock := false } =
        Function.update m.state.inode i (m.state.loaded k n) := by
      have hin₃ : m₃.state.inode = Function.update m.state.inode i { m.state.loaded k n with iLock := true } := by
        rw [hst₃]
      rw [hin₃, Function.update_self, Function.update_idem]
      rfl
    have hstate := congrArg
      (fun f => ({ m₃.state with cache := Function.update m₃.state.cache n.1 c₂, inode := f } : State)) hinodes
    refine hstate.trans ?_
    rw [hst₃]
    rfl
  rw [hloaded] at hload
  have hres : Stands V r q ((m₃.setCache n.1 c₂).setInode i fun n => { n with iLock := false }).state ∧
      ((m₃.setCache n.1 c₂).setInode i fun n => { n with iLock := false }).state.inode =
        Function.update m.state.inode i (m.state.loaded k n) := by
    rw [hst]
    refine ⟨⟨hload, fun j hj => ?_⟩, rfl⟩
    show (Function.update m.state.inode i (m.state.loaded k n) j).iLock = false
    rcases eq_or_ne j i with rfl | hne
    · rw [Function.update_self]
      rfl
    · rw [Function.update_of_ne hne]
      exact h.unlocked j hj
  exact hres

end Stands
/-! ## `sync_dev` -/

namespace Stands

theorem flushDev (h : Stands V r q m.state) (dev : Nat) :
    Runs (Path.flushDev dev) m fun _ s => Stands V r q s ∧ s.inode = m.state.inode := by
  obtain ⟨hsame, hheld⟩ := Cache.same_flush (h.works dev) (h.coherent dev)
  refine ⟨⟨h.toBacked.setCache hsame ?_ (fun b hq => ?_) fun _ _ _ => id, h.unlocked⟩, rfl⟩
  · rw [bufs_same hheld, h.bufs]
  · exact hsame.uptodate b (h.uptodate dev b hq)

/-- Every inode is as it was, but it may have become clean. -/
theorem syncInodes (h : Stands V r q m.state) :
    Runs Path.syncInodes m fun _ s => Stands V r q s ∧
      ∀ j, s.inode j = m.state.inode j ∨ s.inode j = { m.state.inode j with iDirt := false } := by
  refine runs_forM (I := fun s => Stands V r q s ∧
    ∀ j, s.inode j = m.state.inode j ∨ s.inode j = { m.state.inode j with iDirt := false }) ?_ m ⟨h, fun j => .inl rfl⟩
  intro i hi m' ⟨h', hin⟩
  have hi := List.mem_range.mp hi
  unfold syncOne
  refine runs_ok (waitOnInode_eq (h'.unlocked i hi)) (runs_look ?_)
  split
  · refine (h'.writeInode hi).mono fun _ s hret => ?_
    obtain ⟨hs, hins⟩ := hret
    refine ⟨hs, fun j => ?_⟩
    rw [hins]
    rcases eq_or_ne j i with rfl | hne
    · rw [Function.update_self]
      rcases hin j with hj | hj
      · exact .inr (by rw [hj])
      · exact .inr (by rw [hj])
    · rw [Function.update_of_ne hne]
      exact hin j
  · exact ⟨h', hin⟩

theorem syncDev (h : Stands V r q m.state) (dev : Nat) :
    Runs (Path.syncDev dev) m fun _ s => Stands V r q s ∧
      ∀ j, s.inode j = m.state.inode j ∨ s.inode j = { m.state.inode j with iDirt := false } := by
  refine (h.flushDev dev).bind fun _ m₁ hret => ?_
  obtain ⟨h₁, hin₁⟩ := hret
  refine h₁.syncInodes.bind fun _ m₂ hret => ?_
  obtain ⟨h₂, hin₂⟩ := hret
  refine (h₂.flushDev dev).mono fun _ s hret => ?_
  obtain ⟨hs, hins⟩ := hret
  refine ⟨hs, fun j => ?_⟩
  rw [hins, ← hin₁]
  exact hin₂ j

/-! ## `iput` -/

theorem setInode {g : MInode → MInode} (h : Stands V r q m.state)
    (hslot : i < nrInode → Slot V i (r' i) (g (m.state.inode i))) (hr : ∀ j, j ≠ i → r' j = r j)
    (hnode : (g (m.state.inode i)).node = (m.state.inode i).node)
    (hdirt : (g (m.state.inode i)).iDirt = false → (m.state.inode i).iDirt = false)
    (hlock : (g (m.state.inode i)).iLock = (m.state.inode i).iLock) : Stands V r' q (m.setInode i g).state := by
  refine ⟨h.toBacked.setInode hslot hr hnode fun _ _ hclean hd => ?_, fun j hj => ?_⟩
  · rw [hdirt hclean] at hd
    cases hd
  · show (Function.update m.state.inode i _ j).iLock = false
    rcases eq_or_ne j i with rfl | hne
    · rw [Function.update_self, hlock]
      exact h.unlocked j hj
    · rw [Function.update_of_ne hne]
      exact h.unlocked j hj

theorem dropCount (h : Stands V (r + ref i) q m.state) (hi : i < nrInode) :
    Runs (Path.dropCount i) m fun _ s => Stands V r q s ∧
      s.inode = Function.update m.state.inode i { m.state.inode i with iCount := (m.state.inode i).iCount - 1 } := by
  have hslot := h.slot i hi
  have hcount := hslot.count
  rw [Pi.add_apply, ref_apply, if_pos rfl] at hcount
  have hset : Stands V r q (m.setInode i fun n => { n with iCount := n.iCount - 1 }).state := by
    refine h.setInode (fun _ => ?_) (fun j hj => ?_) rfl id rfl
    · refine { hslot with count := ?_, known := fun hdev _ => hslot.known hdev ?_ }
      · show (m.state.inode i).iCount - 1 = _
        omega
      · omega
    · rw [Pi.add_apply, ref_apply, if_neg hj, add_zero]
  exact ⟨hset, rfl⟩

theorem idle_update {f : Nat → MInode} {n : MInode} (hn : n.idle = (f i).idle) (j : Nat) :
    (Function.update f i n j).idle = (f j).idle := by
  rcases eq_or_ne j i with rfl | hne
  · rw [Function.update_self, hn]
  · rw [Function.update_of_ne hne]

/-- A reference is let go, and not more. -/
abbrev Released (V : View) (r : Nat → Nat) (q : Key → Nat) (m : Machine) (s : State) : Prop :=
  Stands V r q s ∧ ∀ j, (s.inode j).idle = (m.state.inode j).idle

theorem dropped (h : Stands V (r + ref i) q m.state) (hi : i < nrInode) :
    Runs (Path.dropCount i) m fun _ => Released V r q m :=
  (h.dropCount hi).mono fun _ s ⟨hs, hin⟩ => ⟨hs, fun j => by
    rw [hin]
    refine idle_update ?_ j
    rfl⟩

/-- `iput`, from the label `repeat` on, when the inode stays on the disk. -/
theorem iputAgain (h : Stands V (r + ref i) q m.state) (hi : i < nrInode)
    (hlinks : (m.state.inode i).iNlinks ≠ 0 ∨ V.base i + r i ≠ 0) :
    Runs (Path.iputAgain i 2) m fun _ => Released V r q m := by
  have hcount := (h.slot i hi).count
  rw [Pi.add_apply, ref_apply, if_pos rfl] at hcount
  unfold Path.iputAgain
  refine runs_look ?_
  by_cases hone : 1 < (m.state.inode i).iCount
  · rw [if_pos hone]
    exact h.dropped hi
  · rw [if_neg hone]
    have hnlinks : (m.state.inode i).iNlinks ≠ 0 := by
      rcases hlinks with hl | hb
      · exact hl
      · omega
    rw [if_neg hnlinks]
    split
    · refine (h.writeInode hi).bind fun _ m₁ hret => ?_
      obtain ⟨h₁, hin₁⟩ := hret
      have hnow : m₁.state.inode i = { m.state.inode i with iDirt := false } := by
        rw [hin₁, Function.update_self]
      refine runs_ok (waitOnInode_eq (h₁.unlocked i hi)) ?_
      -- the inode is clean now
      unfold Path.iputAgain
      refine runs_look ?_
      rw [hnow]
      rw [if_neg hone, if_neg hnlinks, if_neg (by simp)]
      refine (h₁.dropped hi).mono fun _ s hret => ⟨hret.1, fun j => (hret.2 j).trans ?_⟩
      rw [hin₁]
      refine idle_update ?_ j
      rfl
    · exact h.dropped hi

theorem iput (h : Stands V (r + ref i) q m.state) (hi : i < nrInode) (hpipe : (m.state.inode i).iPipe = false)
    (hlinks : (m.state.inode i).iDev = 0 ∨ (m.state.inode i).iNlinks ≠ 0 ∨ V.base i + r i ≠ 0) :
    Runs (Path.iput i) m fun _ => Released V r q m := by
  have hcount := (h.slot i hi).count
  rw [Pi.add_apply, ref_apply, if_pos rfl] at hcount
  unfold Path.iput
  refine runs_ok (waitOnInode_eq (h.unlocked i hi)) (runs_look ?_)
  rw [if_neg (by omega), if_neg (by simp [hpipe])]
  split
  · exact h.dropped hi
  · rename_i hdev
    have hlinks := hlinks.resolve_left hdev
    split
    · refine (h.syncDev _).bind fun _ m₁ hret => ?_
      obtain ⟨h₁, hin₁⟩ := hret
      refine runs_ok (waitOnInode_eq (h₁.unlocked i hi)) ?_
      have hidle (j : Nat) : (m₁.state.inode j).idle = (m.state.inode j).idle := by
        rcases hin₁ j with hj | hj
        · rw [hj]
        · rw [hj]
          rfl
      have hnlinks : (m₁.state.inode i).iNlinks = (m.state.inode i).iNlinks := by
        have heq := congrArg (fun n : MInode => n.iNlinks) (hidle i)
        exact heq
      exact (h₁.iputAgain hi (hnlinks ▸ hlinks)).mono fun _ s hret => ⟨hret.1, fun j => (hret.2 j).trans (hidle j)⟩
    · exact h.iputAgain hi hlinks

end Stands
/-! ## `get_empty_inode` -/

/-- The counts and flags that `get_empty_inode` chooses by. -/
def State.choices (s : State) : ITable where
  inode i := { Fs.MInode.zero with
    iCount := (s.inode i).iCount, iDirt := (s.inode i).iDirt, iLock := (s.inode i).iLock }
  lastInode := s.lastInode
  task _ := ⟨[], none, none⟩
  holds _ _ := 0
  superBlock := []

theorem pick_choices (s : State) (k last : Nat) (choice : Option Nat) :
    s.pick k last choice = s.choices.pick k last choice := by
  induction k generalizing last choice with
  | zero => rfl
  | succ k ih =>
    rw [ITable.pick_succ, ← ih, ← ih]
    rfl

/-- An inode that nobody refers to is chosen. -/
theorem pick_free {s : State} (hfree : ∃ i < nrInode, (s.inode i).iCount = 0) (last : Nat) :
    ∃ i l, s.pick nrInode last none = (some i, l) ∧ i < nrInode ∧ (s.inode i).iCount = 0 := by
  cases hpick : s.pick nrInode last none with
  | mk o l =>
    have hpick' := (pick_choices s nrInode last none).symm.trans hpick
    cases o with
    | none =>
      obtain ⟨i, hi, hcount⟩ := hfree
      obtain ⟨k, hk, rfl⟩ := ITable.nextInode_surj last hi
      exact ((ITable.pick_none hpick').2 k hk hcount).elim
    | some i =>
      obtain ⟨hi, hcount⟩ := ITable.pick_some (fun j hj => by cases hj) hpick'
      exact ⟨i, l, rfl, hi, hcount⟩

/-- A clean slot that nobody refers to is taken. -/
theorem Backed.take (h : Backed V r q m.state) (hi : i < nrInode) (hfree : V.base i + r i = 0)
    (hclean : (m.state.inode i).iDirt = false) : Backed V (r + ref i) q (m.setInode i fun _ => .taken).state := by
  have hself : (m.setInode i fun _ => MInode.taken).state.inode i = .taken := Function.update_self ..
  have hother (j : Nat) (hj : j ≠ i) : (m.setInode i fun _ => MInode.taken).state.inode j = m.state.inode j :=
    Function.update_of_ne hj ..
  have hnode {n : Node} (hn : n.1 ≠ 0) : MInode.taken.node ≠ n := fun heq => hn (congrArg Prod.fst heq).symm
  have hbase : V.base i = 0 := by omega
  refine { h with frame := ?_, slot := ?_, unique := ?_, disk := ?_, unmounted := ?_ }
  · have hframe := congrArg
      (fun s : State => { s with inode := Function.update m.state.inode i .taken }) h.frame
    exact hframe
  · intro j hj
    rw [Pi.add_apply, ref_apply]
    rcases eq_or_ne j i with rfl | hne
    · rw [hself, if_pos rfl]
      refine ⟨?_, fun hb => (hb hbase).elim, fun hp => (by cases hp), by decide, fun hd => (hd rfl).elim,
        fun hd => (by cases hd), fun k hk => (by cases hk), fun hd => (hd rfl).elim, fun hm => (by cases hm)⟩
      show 1 = _
      omega
    · rw [hother j hne, if_neg hne]
      exact h.slot j hj
  · intro a ha b hb hadev heq
    rcases eq_or_ne a i with rfl | hai
    · rw [hself] at hadev
      exact (hadev rfl).elim
    · rw [hother a hai] at heq hadev
      rcases eq_or_ne b i with rfl | hbi
      · rw [hself] at heq
        exact (hnode hadev heq.symm).elim
      · rw [hother b hbi] at heq
        exact h.unique a ha b hb hadev heq
  · intro n k hk hn hc
    refine h.disk n k hk hn fun j hj hjn => ?_
    rcases eq_or_ne j i with rfl | hne
    · exact hclean
    · have hj' := hc j hj (by rw [hother j hne]; exact hjn)
      rw [hother j hne] at hj'
      exact hj'
  · intro n hn hnone
    by_cases hold : (m.state.inode i).node = n
    · have hslot := h.slot i hi
      have hmount : (m.state.inode i).iMount = false := by
        by_contra hm
        exact V.pinned i (hslot.mount (by simpa using hm)) hbase
      subst hold
      rw [hslot.mounted hn, hmount]
      rfl
    · refine h.unmounted n hn fun j hj hjn => ?_
      rcases eq_or_ne j i with rfl | hne
      · exact hold hjn
      · exact hnone j hj (by rw [hother j hne]; exact hjn)

namespace Stands

theorem cleanInode (h : Stands V r q m.state) (hi : i < nrInode) :
    Runs (Path.cleanInode i) m fun _ s =>
      Stands V r q s ∧ s.inode = Function.update m.state.inode i { m.state.inode i with iDirt := false } := by
  unfold Path.cleanInode
  refine runs_look ?_
  split
  · refine (h.writeInode hi).bind fun _ m₁ hret => ?_
    obtain ⟨h₁, hin₁⟩ := hret
    refine runs_ok (waitOnInode_eq (h₁.unlocked i hi)) (runs_look ?_)
    rw [if_neg (by rw [hin₁, Function.update_self]; simp)]
    exact ⟨h₁, hin₁⟩
  · rename_i hdirt
    have hclean : (m.state.inode i).iDirt = false := by simpa using hdirt
    refine ⟨h, ?_⟩
    rw [← hclean]
    exact (Function.update_eq_self i m.state.inode).symm

theorem getEmptyInode (h : Stands V r q m.state) (hfree : ∃ i < nrInode, V.base i + r i = 0) :
    Runs Path.getEmptyInode m fun i s => Stands V (r + ref i) q s ∧ i < nrInode ∧ s.inode i = .taken ∧
      V.base i + r i = 0 := by
  obtain ⟨i, l, hpick, hi, hcount⟩ := pick_free (s := m.state) (hfree.imp fun i hi =>
    ⟨hi.1, (h.slot i hi.1).count.trans hi.2⟩) m.state.lastInode
  have hzero : V.base i + r i = 0 := (h.slot i hi).count.symm.trans hcount
  unfold Path.getEmptyInode
  refine runs_look ?_
  simp only [hpick]
  generalize hm₀ : ({ m with state := { m.state with lastInode := l } } : Machine) = m₀
  have hin₀ : m₀.state.inode = m.state.inode := by rw [← hm₀]
  have h₀ : Stands V r q m₀.state := by
    rw [← hm₀]
    have hframe := congrArg (fun s : State => { s with lastInode := l }) h.frame
    exact { h with frame := hframe }
  refine runs_ok (show _ = EStateM.Result.ok () m₀ by rw [← hm₀]; rfl) ?_
  refine runs_ok (waitOnInode_eq (h₀.unlocked i hi)) ?_
  refine (h₀.cleanInode hi).bind fun _ m₁ hret => runs_look ?_
  obtain ⟨h₁, hin₁⟩ := hret
  have hnow : m₁.state.inode i = { m.state.inode i with iDirt := false } := by
    rw [hin₁, Function.update_self, hin₀]
  rw [if_neg (by rw [hnow]; simp [hcount])]
  refine runs_setInode ?_
  have htake := h₁.toBacked.take hi hzero (by rw [hnow])
  refine ⟨⟨htake, fun j hj => ?_⟩, hi, Function.update_self .., hzero⟩
  show (Function.update m₁.state.inode i MInode.taken j).iLock = false
  rcases eq_or_ne j i with rfl | hne
  · rw [Function.update_self]
    rfl
  · rw [Function.update_of_ne hne]
    exact h₁.unlocked j hj

end Stands
/-! ## `iget` -/

theorem findInode_some {dev nr : Nat} (h : s.findInode dev nr = some i) :
    i < nrInode ∧ (s.inode i).node = (dev, nr) := by
  unfold State.findInode at h
  have hfound := List.find?_some h
  refine ⟨List.mem_range.mp (List.mem_of_find?_eq_some h), ?_⟩
  simp only [Bool.and_eq_true, beq_iff_eq] at hfound
  exact Prod.ext hfound.1 hfound.2

theorem findInode_none {dev nr : Nat} (h : s.findInode dev nr = none) :
    ∀ j < nrInode, (s.inode j).node ≠ (dev, nr) := by
  intro j hj heq
  refine List.find?_eq_none.mp h j (List.mem_range.mpr hj) ?_
  have hdev : (s.inode j).iDev = dev := congrArg Prod.fst heq
  have hnum : (s.inode j).iNum = nr := congrArg Prod.snd heq
  simp [hdev, hnum]

/-- The call has got the inode of the file `n`. -/
def Gets (V : View) (r : Nat → Nat) (q : Key → Nat) (n : Node) (o : Option Nat) (s : State) : Prop :=
  ∃ i < nrInode, o = some i ∧ Stands V (r + ref i) q s ∧ (s.inode i).node = n

namespace Stands

/-- One more reference to a slot whose device is known. -/
theorem addCount (h : Stands V r q m.state) (hk : ∃ k, V.start.getSuper (m.state.inode i).iDev = some k) :
    Stands V (r + ref i) q (m.setInode i fun n => { n with iCount := n.iCount + 1 }).state := by
  refine h.setInode (fun hi => ?_) (fun j hj => ?_) rfl id rfl
  · have hslot := h.slot i hi
    refine { hslot with count := ?_, known := fun _ _ => hk }
    show (m.state.inode i).iCount + 1 = _
    rw [hslot.count, Pi.add_apply, ref_apply, if_pos rfl, add_assoc]
  · rw [Pi.add_apply, ref_apply, if_neg hj, add_zero]

/-- A slot that was taken is as it was. -/
theorem eq_taken (h : Stands V (r + ref i) q s) (hi : i < nrInode) (hfree : V.base i + r i = 0)
    (hidle : (s.inode i).idle = MInode.taken.idle) : s.inode i = .taken := by
  have hslot := h.slot i hi
  have hcount : (s.inode i).iCount = 1 := by
    rw [hslot.count, Pi.add_apply, ref_apply, if_pos rfl]
    omega
  have hdev : (s.inode i).iDev = 0 := congrArg Prod.fst (node_of_idle hidle)
  have hdirt : (s.inode i).iDirt = false := by
    by_contra hd
    obtain ⟨k, hk, -⟩ := hslot.dirty (by simpa using hd)
    rw [hdev] at hk
    cases hk
  have hsame : s.inode i = { (s.inode i).idle with iCount := 1, iDirt := false } := by
    rw [← hcount, ← hdirt]
    rfl
  rw [hsame, hidle]
  rfl

theorem igetSearch {e : Nat} (he : e < nrInode) (hfree : V.base e + r e = 0) (fuel : Nat) {n n' : Node}
    (h : Stands V (r + ref e) q m.state) (htaken : m.state.inode e = .taken) (hn : n.2 < 2 ^ 16)
    (hk : ∃ k, V.start.getSuper n.1 = some k) (hcross : V.files.cross fuel n = some n') :
    Runs (Path.igetSearch e fuel n.1 n.2) m (Gets V r q n') := by
  induction fuel generalizing m n with
  | zero => cases hcross
  | succ fuel ih =>
    have hdev : n.1 ≠ 0 := by
      obtain ⟨k, hk⟩ := hk
      intro hzero
      rw [hzero] at hk
      cases hk
    unfold Files.cross at hcross
    unfold Path.igetSearch
    refine runs_look ?_
    cases hfind : m.state.findInode n.1 n.2 with
    | none =>
      have hnone := findInode_none hfind
      rw [h.unmounted n hdev hnone] at hcross
      cases hcross
      obtain ⟨k, hk⟩ := hk
      refine runs_setInode ((h.readInode he htaken (by omega) hk hn hnone).bind fun _ m₁ hret => ?_)
      obtain ⟨h₁, hin₁⟩ := hret
      refine ⟨e, he, rfl, h₁, ?_⟩
      rw [hin₁, Function.update_self]
      rfl
    | some i =>
      obtain ⟨hi, hnode⟩ := findInode_some hfind
      have hni : (m.state.inode i).node = n := hnode
      have hidev : (m.state.inode i).iDev = n.1 := congrArg Prod.fst hni
      have hie : i ≠ e := by
        rintro rfl
        rw [htaken] at hidev
        exact hdev hidev.symm
      have hslot := h.slot i hi
      have hpipe : (m.state.inode i).iPipe = false := by
        by_contra hp
        exact hdev (hidev ▸ hslot.pipe (by simpa using hp))
      refine runs_ok (waitOnInode_eq (h.unlocked i hi)) (runs_setInode ?_)
      have h₁ := h.addCount (i := i) (hidev ▸ hk)
      generalize hm₁ : (m.setInode i fun n => { n with iCount := n.iCount + 1 }) = m₁ at h₁ ⊢
      have hin₁ : m₁.state.inode = Function.update m.state.inode i
          { m.state.inode i with iCount := (m.state.inode i).iCount + 1 } := by
        rw [← hm₁]
        rfl
      have hi₁ : m₁.state.inode i = { m.state.inode i with iCount := (m.state.inode i).iCount + 1 } := by
        rw [hin₁, Function.update_self]
      have hidle₁ (j : Nat) : (m₁.state.inode j).idle = (m.state.inode j).idle := by
        rw [hin₁]
        refine idle_update ?_ j
        rfl
      have he₁ : m₁.state.inode e = .taken := by rw [hin₁, Function.update_of_ne hie.symm, htaken]
      -- `empty` is given back
      have hfound (hn' : n = n') : Runs (do Path.iput e; return some i) m₁ (Gets V r q n') := by
        have hput : Stands V (r + ref i + ref e) q m₁.state := by
          rw [add_right_comm]
          exact h₁
        refine (hput.iput he (by rw [he₁]; rfl) (.inl (by rw [he₁]; rfl))).bind fun _ m₂ hret => ?_
        obtain ⟨h₂, hidle₂⟩ := hret
        refine ⟨i, hi, rfl, h₂, ?_⟩
        rw [node_of_idle (hidle₂ i), node_of_idle (hidle₁ i), hni, hn']
      have hmounted := hslot.mounted (hidev ▸ hdev)
      rw [hni] at hmounted
      refine runs_look ?_
      rw [hi₁]
      by_cases hmount : (m.state.inode i).iMount = true
      · rw [if_pos hmount] at hmounted ⊢
        refine runs_look ?_
        rw [h₁.mountedOn]
        cases hon : V.start.mountedOn i with
        | none =>
          rw [hon] at hmounted
          rw [hmounted] at hcross
          exact hfound (Option.some.inj hcross)
        | some k =>
          rw [hon] at hmounted
          rw [hmounted] at hcross
          have hbase := V.pinned _ (hslot.mount hmount)
          refine (h₁.iput hi (by rw [hi₁]; exact hpipe) (.inr (.inr (by omega)))).bind fun _ m₂ hret => ?_
          obtain ⟨h₂, hidle₂⟩ := hret
          refine runs_look ?_
          rw [h₂.superBlock]
          have he₂ : m₂.state.inode e = .taken := by
            refine h₂.eq_taken he hfree ?_
            rw [hidle₂ e, he₁]
          exact ih h₂ he₂ (n := ((V.start.superBlock k).sDev, 1)) (show 1 < 2 ^ 16 by decide) (V.onto i k hon) hcross
      · rw [if_neg hmount] at hmounted ⊢
        rw [hmounted] at hcross
        exact hfound (Option.some.inj hcross)

/-- `iget` gets the inode of a file, or of what is mounted on it. -/
theorem iget (h : Stands V r q m.state) (hfree : ∃ i < nrInode, V.base i + r i = 0) {fuel : Nat} {n n' : Node}
    (hn : n.2 < 2 ^ 16) (hk : ∃ k, V.start.getSuper n.1 = some k) (hcross : V.files.cross fuel n = some n') :
    Runs (Path.iget fuel n.1 n.2) m (Gets V r q n') := by
  have hdev : n.1 ≠ 0 := by
    obtain ⟨k, hk⟩ := hk
    intro hzero
    rw [hzero] at hk
    cases hk
  unfold Path.iget
  rw [if_neg hdev]
  refine (h.getEmptyInode hfree).bind fun e m₁ hret => ?_
  obtain ⟨h₁, he, htaken, hzero⟩ := hret
  exact h₁.igetSearch he hzero fuel htaken hn hk hcross

end Stands

end Linux011.Path
