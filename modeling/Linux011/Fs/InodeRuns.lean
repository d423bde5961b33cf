import Mathlib.Algebra.Order.BigOperators.Group.Finset
import Mathlib.Algebra.Order.BigOperators.Group.List
import Mathlib.Algebra.Order.Group.Nat
import Linux011.Fs.InodeTable
import Linux011.Lib.Run

/-!
# Runs of `iget` and `iput`

Any tasks, in any order. `Inv` says that `i_count` counts the references of the tasks, of their calls
in progress and of the rest of the kernel, and that no two slots have the inode of one device and
number. A step changes the inode of a slot only if nobody else has a reference to it.
-/

namespace Linux011.Fs

/-- The references to slot `i` that belong to what is still to do. -/
def InodeOp.owns (i : Nat) : InodeOp → Nat
  | .iput j => if j = i then 1 else 0
  | .again j => if j = i then 1 else 0
  | .free j => if j = i then 1 else 0
  | .ret (some j) => if j = i then 1 else 0
  | _ => 0

/-- The references to slot `i` that belong to a list of operations. -/
def ownsAll (i : Nat) (ops : List InodeOp) : Nat :=
  (ops.map (InodeOp.owns i)).sum

def ITask.owns (T : ITask) (i : Nat) : Nat :=
  ownsAll i T.ops + if T.empty = some i then 1 else 0

/-- The operations of a task in an order that occurs; the flag says whether it has an empty slot. -/
def Ready : Bool → List InodeOp → Prop
  | b, [] => b = false
  | b, .getEmpty :: ops => b = false ∧ Ready true ops
  | b, .clean _ :: ops => b = false ∧ Ready true ops
  | b, .search _ _ :: ops => b = true ∧ ops = []
  | b, .found _ _ _ :: ops => b = true ∧ ops = []
  | b, .ret o :: ops => b = false ∧ o ≠ none ∧ ops = []
  | b, _ :: ops => Ready b ops

namespace ITable

/-! ## What is mounted -/

/-- The file system of `dev` is mounted on the inode `a`. -/
def Mounted (s : ITable) (a : Ident) (dev : BitVec 16) : Prop :=
  ∃ i sb, i < nrInode ∧ (s.inode i).iMount = true ∧ (s.inode i).ident = a ∧
    s.superBlock.find? (fun sb => sb.1 == i) = some sb ∧ sb.2 = dev

/-- From `a` over what is mounted on it, and so on. -/
inductive Leads (s : ITable) (a : Ident) : Ident → Prop
  | refl : Leads s a a
  | cross {b : Ident} {dev : BitVec 16} (h : Leads s a b) (hm : s.Mounted b dev) :
      Leads s a (dev, rootIno)

/-! ## The invariant -/

/-- The references that a task and its call have. -/
def share (s : ITable) (t i : Nat) : Nat :=
  s.holds t i + (s.task t).owns i

def owned (s : ITable) (i : Nat) : Nat :=
  ∑ t ∈ Finset.range nrTasks, s.share t i

def OpOk (s : ITable) (asked : Option Ident) : InodeOp → Prop
  | .again i => (s.inode i).iDev ≠ 0
  | .free i => (s.inode i).iDev ≠ 0
  | .clean i => i < nrInode
  | .search dev nr => dev ≠ 0 ∧ ∃ a, asked = some a ∧ s.Leads a (dev, nr)
  | .found i dev nr => i < nrInode ∧ dev ≠ 0 ∧ ∃ a, asked = some a ∧ s.Leads a (dev, nr)
  | .ret (some i) => i < nrInode ∧ (s.inode i).iDev ≠ 0 ∧ (∀ dev, ¬ s.Mounted (s.inode i).ident dev) ∧
      ∃ a, asked = some a ∧ s.Leads a (s.inode i).ident
  | _ => True

structure TaskOk (s : ITable) (T : ITask) : Prop where
  ready : Ready T.empty.isSome T.ops
  empty : ∀ e, T.empty = some e → e < nrInode ∧ (s.inode e).iDev = 0 ∧ (s.inode e).iMount = false ∧
    (s.inode e).iCount = 1
  ops : ∀ op ∈ T.ops, s.OpOk T.asked op

/-- `kept` counts the references of the rest of the kernel, such as those of `super_block`. -/
structure Inv (kept : Nat → Nat) (s : ITable) : Prop where
  count : ∀ i, (s.inode i).iCount = s.owned i + kept i
  unique : ∀ i j, i < nrInode → j < nrInode → (s.inode i).iDev ≠ 0 →
    (s.inode i).ident = (s.inode j).ident → i = j
  mount : ∀ i, (s.inode i).iMount = true → 0 < kept i ∧ (s.inode i).iDev ≠ 0
  devs : ∀ sb ∈ s.superBlock, sb.2 ≠ 0
  tasks : ∀ t, t < nrTasks → s.TaskOk (s.task t)

variable {kept : Nat → Nat} {s s' : ITable} {t u i j : Nat} {T : ITask}

theorem owned_split (ht : t < nrTasks) (i : Nat) :
    s.owned i = s.share t i + ∑ u ∈ (Finset.range nrTasks).erase t, s.share u i :=
  (Finset.add_sum_erase _ _ (Finset.mem_range.mpr ht)).symm

/-- The references that a task has are counted. -/
theorem Inv.share_le (h : s.Inv kept) (ht : t < nrTasks) (i : Nat) :
    s.share t i + kept i ≤ (s.inode i).iCount := by
  rw [h.count, owned_split ht]
  omega

/-- If one task has all the references to a slot, nobody else has one. -/
theorem Inv.alone (h : s.Inv kept) (ht : t < nrTasks) (hu : u < nrTasks) (hne : u ≠ t)
    (hall : (s.inode i).iCount ≤ s.share t i) : s.share u i = 0 ∧ kept i = 0 := by
  have hmem : u ∈ (Finset.range nrTasks).erase t :=
    Finset.mem_erase.mpr ⟨hne, Finset.mem_range.mpr hu⟩
  have hle := Finset.single_le_sum (f := fun u => s.share u i) (fun _ _ => Nat.zero_le _) hmem
  have hcount := h.count i
  rw [owned_split ht] at hcount
  have hle' : s.share u i ≤ ∑ u ∈ (Finset.range nrTasks).erase t, s.share u i := hle
  omega

theorem Inv.kept_zero (h : s.Inv kept) (ht : t < nrTasks)
    (hall : (s.inode i).iCount ≤ s.share t i) : kept i = 0 := by
  have hle := h.share_le ht i
  omega

/-! ## One step -/

/-- The task `t` moves, and slot `i` may change. Its inode changes only if the task has all the
references to it: there is none, the last one goes, or it is the empty slot of the task. -/
structure Moves (s : ITable) (t i : Nat) (s' : ITable) : Prop where
  inode : ∀ j, j ≠ i → s'.inode j = s.inode j
  task : ∀ u, u ≠ t → s'.task u = s.task u
  holds : ∀ u, u ≠ t → s'.holds u = s.holds u
  superBlock : s'.superBlock = s.superBlock
  count : ∀ j, (s'.inode j).iCount + s.share t j = (s.inode j).iCount + s'.share t j
  grow : (s'.inode i).iCount ≤ (s.inode i).iCount ∨ (s.inode i).iDev ≠ 0 ∨ (s.inode i).iCount = 0 ∨
    0 < s.holds t i
  ident : ((s'.inode i).ident = (s.inode i).ident ∧ (s'.inode i).iMount = (s.inode i).iMount) ∨
    ((s.inode i).iCount ≤ s.share t i ∧ (s'.inode i).iMount = false ∧
      ((s'.inode i).iDev ≠ 0 → ∀ j < nrInode, (s.inode j).ident ≠ (s'.inode i).ident) ∧
      ((s.inode i).iCount = 0 ∨ (s'.inode i).iCount = 0 ∨
        ((s.inode i).iDev = 0 ∧ (s.task t).empty = some i)))

/-- What is mounted stays. -/
theorem Moves.mounted (hm : Moves s t i s') (h : s.Inv kept) (ht : t < nrTasks) {a : Ident}
    {dev : BitVec 16} : s'.Mounted a dev ↔ s.Mounted a dev := by
  have hsame : ∀ j, (s'.inode j).iMount = (s.inode j).iMount ∧
      ((s.inode j).iMount = true → (s'.inode j).ident = (s.inode j).ident) := by
    intro j
    by_cases hj : j = i
    · subst hj
      rcases hm.ident with ⟨hident, hmount⟩ | ⟨hall, hmount, -⟩
      · exact ⟨hmount, fun _ => hident⟩
      · -- a mounted inode is kept by its super block
        have hnot : (s.inode j).iMount = false := by
          cases hj : (s.inode j).iMount with
          | false => rfl
          | true =>
            have hpos := (h.mount j hj).1
            have hzero := h.kept_zero ht hall
            omega
        rw [hmount, hnot]
        exact ⟨rfl, fun hc => by cases hc⟩
    · rw [hm.inode j hj]
      exact ⟨rfl, fun _ => rfl⟩
  constructor
  · rintro ⟨j, sb, hlt, hmount, hident, hfind, hdev⟩
    rw [(hsame j).1] at hmount
    rw [(hsame j).2 hmount] at hident
    rw [hm.superBlock] at hfind
    exact ⟨j, sb, hlt, hmount, hident, hfind, hdev⟩
  · rintro ⟨j, sb, hlt, hmount, hident, hfind, hdev⟩
    refine ⟨j, sb, hlt, (hsame j).1.trans hmount, ((hsame j).2 hmount).trans hident, ?_, hdev⟩
    rw [hm.superBlock]
    exact hfind

theorem Leads.mono {a b : Ident} (hl : s.Leads a b)
    (hm : ∀ b dev, s.Mounted b dev → s'.Mounted b dev) : s'.Leads a b := by
  induction hl with
  | refl => exact .refl
  | cross _ hmounted ih => exact .cross ih (hm _ _ hmounted)

theorem Moves.leads (hm : Moves s t i s') (h : s.Inv kept) (ht : t < nrTasks) {a b : Ident}
    (hl : s.Leads a b) : s'.Leads a b :=
  hl.mono fun _ _ => (hm.mounted h ht).mpr

/-- An operation that is fit stays fit, if its slot keeps its inode. -/
theorem Moves.opOk (hm : Moves s t i s') (h : s.Inv kept) (ht : t < nrTasks) {asked : Option Ident}
    {op : InodeOp} (hop : s.OpOk asked op)
    (hident : ∀ j, 0 < op.owns j → (s'.inode j).ident = (s.inode j).ident) :
    s'.OpOk asked op := by
  have hdevs : ∀ j, 0 < op.owns j → (s'.inode j).iDev = (s.inode j).iDev := fun j hj =>
    congrArg Prod.fst (hident j hj)
  cases op with
  | again j =>
    show (s'.inode j).iDev ≠ 0
    rw [hdevs j (by simp [InodeOp.owns])]
    exact hop
  | free j =>
    show (s'.inode j).iDev ≠ 0
    rw [hdevs j (by simp [InodeOp.owns])]
    exact hop
  | search dev nr =>
    obtain ⟨hdev, a, ha, hl⟩ := hop
    exact ⟨hdev, a, ha, hm.leads h ht hl⟩
  | found j dev nr =>
    obtain ⟨hj, hdev, a, ha, hl⟩ := hop
    exact ⟨hj, hdev, a, ha, hm.leads h ht hl⟩
  | clean j => exact hop
  | ret o =>
    cases o with
    | none => trivial
    | some j =>
      obtain ⟨hj, hdev, hfinal, a, ha, hl⟩ := hop
      have hsame := hident j (by simp [InodeOp.owns])
      have hdev' := hdevs j (by simp [InodeOp.owns])
      refine ⟨hj, hdev' ▸ hdev, fun dev hmounted => ?_, a, ha, ?_⟩
      · rw [hsame] at hmounted
        exact hfinal dev ((hm.mounted h ht).mp hmounted)
      · rw [hsame]
        exact hm.leads h ht hl
  | _ => trivial

theorem owns_of_mem {op : InodeOp} (hop : op ∈ T.ops) : op.owns i ≤ T.owns i :=
  le_trans (List.le_sum_of_mem (List.mem_map_of_mem hop)) (Nat.le_add_right _ _)

/-- Other tasks are not affected. -/
theorem Moves.taskOk (hm : Moves s t i s') (h : s.Inv kept) (ht : t < nrTasks) (hu : u < nrTasks)
    (hne : u ≠ t) : s'.TaskOk (s.task u) := by
  obtain ⟨hready, hempty, hops⟩ := h.tasks u hu
  -- a slot that the other task has a reference to keeps its inode
  have hkeep : ∀ j, 0 < (s.task u).owns j →
      (s'.inode j).ident = (s.inode j).ident ∧ (s'.inode j).iMount = (s.inode j).iMount := by
    intro j hj
    by_cases hji : j = i
    · subst hji
      rcases hm.ident with hsame | ⟨hall, -⟩
      · exact hsame
      · have hzero := (h.alone ht hu hne hall).1
        unfold share at hzero
        omega
    · rw [hm.inode j hji]
      exact ⟨rfl, rfl⟩
  refine ⟨hready, fun e he => ?_, fun op hop => hm.opOk h ht (hops op hop) fun j hj => ?_⟩
  · obtain ⟨hlt, hdev, hmount, hone⟩ := hempty e he
    have hown : 0 < (s.task u).owns e := by simp [ITask.owns, he]
    have hsame := hkeep e hown
    have hdevs : (s'.inode e).iDev = (s.inode e).iDev := congrArg Prod.fst hsame.1
    refine ⟨hlt, hdevs.trans hdev, hsame.2.trans hmount, ?_⟩
    by_cases hei : e = i
    · -- the task that moves has no reference to the slot, and gets none
      subst hei
      have hzero : s.share t e = 0 := (h.alone hu ht (Ne.symm hne) (by unfold share; omega)).1
      have hcount := hm.count e
      have hgrow : (s'.inode e).iCount ≤ (s.inode e).iCount := by
        rcases hm.grow with hle | hdev' | hcount' | hpos
        · exact hle
        · exact absurd hdev hdev'
        · omega
        · unfold share at hzero
          omega
      omega
    · rw [hm.inode e hei]
      exact hone
  · have hle := owns_of_mem (i := j) hop
    exact (hkeep j (by omega)).1

theorem Inv.move (h : s.Inv kept) (ht : t < nrTasks) (hm : Moves s t i s')
    (hok : s'.TaskOk (s'.task t)) : s'.Inv kept := by
  refine ⟨fun j => ?_, fun j k hj hk hdev heq => ?_, fun j hj => ?_, ?_, fun u hu => ?_⟩
  · have hrest : ∑ u ∈ (Finset.range nrTasks).erase t, s'.share u j =
        ∑ u ∈ (Finset.range nrTasks).erase t, s.share u j := by
      refine Finset.sum_congr rfl fun u hu => ?_
      have hne := (Finset.mem_erase.mp hu).1
      unfold share
      rw [hm.task u hne, hm.holds u hne]
    have hcount := h.count j
    have hmove := hm.count j
    rw [owned_split ht] at hcount ⊢
    omega
  · by_cases hji : j = i
    · by_cases hki : k = i
      · rw [hji, hki]
      · subst hji
        rw [hm.inode k hki] at heq
        rcases hm.ident with ⟨hident, -⟩ | ⟨-, -, hnew, -⟩
        · have hdevs : (s'.inode j).iDev = (s.inode j).iDev := congrArg Prod.fst hident
          exact h.unique j k hj hk (hdevs ▸ hdev) (hident ▸ heq)
        · exact absurd heq.symm (hnew hdev k hk)
    · rw [hm.inode j hji] at heq hdev
      by_cases hki : k = i
      · subst hki
        rcases hm.ident with ⟨hident, -⟩ | ⟨-, -, hnew, -⟩
        · exact h.unique j k hj hk hdev (hident ▸ heq)
        · have hdevs : (s'.inode k).iDev = (s.inode j).iDev := (congrArg Prod.fst heq).symm
          exact absurd heq (hnew (hdevs ▸ hdev) j hj)
      · rw [hm.inode k hki] at heq
        exact h.unique j k hj hk hdev heq
  · by_cases hji : j = i
    · subst hji
      rcases hm.ident with ⟨hident, hmount⟩ | ⟨-, hmount, -⟩
      · rw [hmount] at hj
        have hdevs : (s'.inode j).iDev = (s.inode j).iDev := congrArg Prod.fst hident
        rw [hdevs]
        exact h.mount j hj
      · rw [hmount] at hj
        cases hj
    · rw [hm.inode j hji] at hj ⊢
      exact h.mount j hj
  · rw [hm.superBlock]
    exact h.devs
  · by_cases hut : u = t
    · exact hut ▸ hok
    · rw [hm.task u hut]
      exact hm.taskOk h ht hu hut

/-! ## The operations -/

@[simp]
theorem ownsAll_nil : ownsAll i [] = 0 := rfl

@[simp]
theorem ownsAll_cons {op : InodeOp} {ops : List InodeOp} :
    ownsAll i (op :: ops) = op.owns i + ownsAll i ops := by
  simp [ownsAll]

theorem ownsAll_append {ops ops' : List InodeOp} :
    ownsAll i (ops ++ ops') = ownsAll i ops + ownsAll i ops' := by
  simp [ownsAll]

theorem owns_mk {ops : List InodeOp} {e : Option Nat} {a : Option Ident} :
    (ITask.mk ops e a).owns i = ownsAll i ops + if e = some i then 1 else 0 := rfl

theorem owns_cons {op : InodeOp} {rest : List InodeOp} (hops : T.ops = op :: rest) :
    T.owns i = op.owns i + ownsAll i rest + if T.empty = some i then 1 else 0 := by
  rw [ITask.owns, hops, ownsAll_cons]

theorem setInode_self (s : ITable) (i : Nat) : s.setInode i (s.inode i) = s := by
  simp [setInode]

/-- Slot `i`, the task `t` and its references change. -/
theorem moves_of {n : MInode} {T' : ITask} {H : Nat → Nat}
    (hinode : s'.inode = Function.update s.inode i n)
    (htask : s'.task = Function.update s.task t T')
    (hholds : s'.holds = Function.update s.holds t H) (hsuper : s'.superBlock = s.superBlock)
    (hcount : n.iCount + s.holds t i + (s.task t).owns i = (s.inode i).iCount + H i + T'.owns i)
    (hother : ∀ j, j ≠ i → s.holds t j + (s.task t).owns j = H j + T'.owns j)
    (hgrow : n.iCount ≤ (s.inode i).iCount ∨ (s.inode i).iDev ≠ 0 ∨ (s.inode i).iCount = 0 ∨
      0 < s.holds t i)
    (hident : (n.ident = (s.inode i).ident ∧ n.iMount = (s.inode i).iMount) ∨
      ((s.inode i).iCount ≤ s.share t i ∧ n.iMount = false ∧
        (n.iDev ≠ 0 → ∀ j < nrInode, (s.inode j).ident ≠ n.ident) ∧
        ((s.inode i).iCount = 0 ∨ n.iCount = 0 ∨
          ((s.inode i).iDev = 0 ∧ (s.task t).empty = some i)))) : Moves s t i s' := by
  have hself : s'.inode i = n := by rw [hinode, Function.update_self]
  have hne : ∀ j, j ≠ i → s'.inode j = s.inode j := fun j hj => by
    rw [hinode, Function.update_of_ne hj]
  have hshare : ∀ j, s'.share t j = H j + T'.owns j := fun j => by
    rw [share, htask, hholds, Function.update_self, Function.update_self]
  refine ⟨hne, fun u hu => ?_, fun u hu => ?_, hsuper, fun j => ?_, ?_, ?_⟩
  · rw [htask, Function.update_of_ne hu]
  · rw [hholds, Function.update_of_ne hu]
  · rw [hshare, share]
    by_cases hj : j = i
    · subst hj
      rw [hself]
      omega
    · have hj' := hother j hj
      rw [hne j hj]
      omega
  · rw [hself]
    exact hgrow
  · rw [hself]
    exact hident

/-- Slot `i` and the task `t` change. -/
theorem moves_set {n : MInode} {T' : ITask}
    (hcount : n.iCount + (s.task t).owns i = (s.inode i).iCount + T'.owns i)
    (hother : ∀ j, j ≠ i → (s.task t).owns j = T'.owns j)
    (hgrow : n.iCount ≤ (s.inode i).iCount ∨ (s.inode i).iDev ≠ 0 ∨ (s.inode i).iCount = 0)
    (hident : (n.ident = (s.inode i).ident ∧ n.iMount = (s.inode i).iMount) ∨
      ((s.inode i).iCount ≤ s.share t i ∧ n.iMount = false ∧
        (n.iDev ≠ 0 → ∀ j < nrInode, (s.inode j).ident ≠ n.ident) ∧
        ((s.inode i).iCount = 0 ∨ n.iCount = 0 ∨
          ((s.inode i).iDev = 0 ∧ (s.task t).empty = some i)))) :
    Moves s t i ((s.setInode i n).setTask t T') := by
  have hholds : s.holds = Function.update s.holds t (s.holds t) := (Function.update_eq_self ..).symm
  refine moves_of rfl rfl hholds rfl ?_ (fun j hj => ?_)
    (hgrow.imp_right fun hg => hg.imp_right .inl) hident
  · omega
  · rw [hother j hj]

/-- The step keeps the invariant. -/
def Follows (s : ITable) (t : Nat) (s' : ITable) : Prop :=
  ∃ i, Moves s t i s' ∧ s'.TaskOk (s'.task t)

/-- An operation that leaves the inodes of the slots as they are. -/
theorem follows_same (h : s.Inv kept) (ht : t < nrTasks) {op : InodeOp} {rest : List InodeOp}
    (hops : (s.task t).ops = op :: rest) {n : MInode} (new : List InodeOp)
    (hident : n.ident = (s.inode i).ident) (hmount : n.iMount = (s.inode i).iMount)
    (hgrow : n.iCount ≤ (s.inode i).iCount ∨ (s.inode i).iDev ≠ 0)
    (hcount : n.iCount + op.owns i = (s.inode i).iCount + ownsAll i new)
    (hother : ∀ j, j ≠ i → op.owns j = ownsAll j new)
    (hready : Ready (s.task t).empty.isSome (new ++ rest))
    (hnew : ∀ op ∈ new, s.OpOk (s.task t).asked op) :
    Follows s t ((s.setInode i n).goOn t (new ++ rest)) := by
  have hm : Moves s t i ((s.setInode i n).goOn t (new ++ rest)) := by
    refine moves_set ?_ (fun j hj => ?_) (hgrow.imp_right .inl) (.inl ⟨hident, hmount⟩)
    · show _ = _ + (ITask.mk (new ++ rest) (s.task t).empty (s.task t).asked).owns i
      rw [owns_cons hops, owns_mk, ownsAll_append]
      omega
    · show _ = (ITask.mk (new ++ rest) (s.task t).empty (s.task t).asked).owns j
      rw [owns_cons hops, owns_mk, ownsAll_append, hother j hj]
  have hsame : ∀ j, (((s.setInode i n).goOn t (new ++ rest)).inode j).ident = (s.inode j).ident ∧
      (((s.setInode i n).goOn t (new ++ rest)).inode j).iMount = (s.inode j).iMount := by
    intro j
    by_cases hj : j = i
    · subst hj
      simp [goOn, setTask, setInode, hident, hmount]
    · rw [hm.inode j hj]
      exact ⟨rfl, rfl⟩
  obtain ⟨-, hempty, hold⟩ := h.tasks t ht
  refine ⟨i, hm, ?_⟩
  have htask : ((s.setInode i n).goOn t (new ++ rest)).task t =
    { s.task t with ops := new ++ rest } := Function.update_self ..
  rw [htask]
  refine ⟨hready, fun e he => ?_, fun op' hop => ?_⟩
  · obtain ⟨hlt, hdev, hmnt, hone⟩ := hempty e he
    have hdevs : (((s.setInode i n).goOn t (new ++ rest)).inode e).iDev = (s.inode e).iDev :=
      congrArg Prod.fst (hsame e).1
    refine ⟨hlt, hdevs.trans hdev, (hsame e).2.trans hmnt, ?_⟩
    by_cases hei : e = i
    · subst hei
      have hself : ((s.setInode e n).goOn t (new ++ rest)).inode e = n := Function.update_self ..
      have hle := h.share_le ht e
      unfold share at hle
      rw [owns_cons hops, if_pos he] at hle
      rw [hself]
      rcases hgrow with hg | hg
      · omega
      · exact absurd hdev hg
    · rw [hm.inode e hei]
      exact hone
  · have hfit : s.OpOk (s.task t).asked op' := by
      rcases List.mem_append.mp hop with hop | hop
      · exact hnew op' hop
      · exact hold op' (hops ▸ List.mem_cons_of_mem op hop)
    exact hm.opOk h ht hfit fun j _ => (hsame j).1

/-- An operation that leaves the table as it is. -/
theorem follows_goOn (h : s.Inv kept) (ht : t < nrTasks) {op : InodeOp} {rest : List InodeOp}
    (hops : (s.task t).ops = op :: rest) (new : List InodeOp)
    (howns : ∀ j, op.owns j = ownsAll j new)
    (hready : Ready (s.task t).empty.isSome (new ++ rest))
    (hnew : ∀ op ∈ new, s.OpOk (s.task t).asked op) : Follows s t (s.goOn t (new ++ rest)) := by
  have hsame := follows_same h ht hops (i := 0) (n := s.inode 0) new rfl rfl
    (.inl le_rfl) (by rw [howns]) (fun j _ => howns j) hready hnew
  rwa [setInode_self] at hsame

/-- The rest of a list of operations that is ready. -/
theorem Inv.ready (h : s.Inv kept) (ht : t < nrTasks) {op : InodeOp} {rest : List InodeOp}
    (hops : (s.task t).ops = op :: rest) : Ready (s.task t).empty.isSome (op :: rest) := by
  rw [← hops]
  exact (h.tasks t ht).ready

theorem Inv.op_le (h : s.Inv kept) (ht : t < nrTasks) {op : InodeOp} {rest : List InodeOp}
    (hops : (s.task t).ops = op :: rest) (j : Nat) :
    op.owns j + ownsAll j rest ≤ (s.inode j).iCount := by
  have hle := h.share_le ht j
  unfold share at hle
  rw [owns_cons hops] at hle
  omega

section Ops

variable {rest : List InodeOp}

/-! ### `iput` -/

theorem follows_iputAgain (h : s.Inv kept) (ht : t < nrTasks) {op : InodeOp}
    (hops : (s.task t).ops = op :: rest) (howns : ∀ j, op.owns j = InodeOp.owns j (.again i))
    (hdev : (s.inode i).iDev ≠ 0) (hready : Ready (s.task t).empty.isSome rest) :
    Follows s t (s.iputAgain t i rest) := by
  have hle := h.op_le ht hops i
  rw [howns] at hle
  have hpos : 0 < (s.inode i).iCount := by
    simp [InodeOp.owns] at hle
    omega
  have hdrop : Follows s t ((s.setCount i ((s.inode i).iCount - 1)).goOn t rest) := by
    refine follows_same h ht hops [] rfl rfl (.inl (Nat.sub_le ..)) ?_ (fun j hj => ?_) hready
      (by simp)
    · rw [howns]
      simp [InodeOp.owns]
      omega
    · rw [howns]
      simp [InodeOp.owns, Ne.symm hj]
  unfold iputAgain
  dsimp only
  split
  · exact hdrop
  · split
    · exact follows_goOn h ht hops [.free i] (fun j => by rw [howns]; simp [InodeOp.owns]) hready
        (by simpa [OpOk] using hdev)
    · split
      · exact follows_goOn h ht hops [.write i, .waitOn i, .again i]
          (fun j => by rw [howns]; simp [InodeOp.owns]) hready (by simpa [OpOk] using hdev)
      · exact hdrop

theorem follows_iput (h : s.Inv kept) (ht : t < nrTasks)
    (hops : (s.task t).ops = .iput i :: rest) :
    ∃ s', s.iput t i rest = .ok s' ∧ Follows s t s' := by
  have hready : Ready (s.task t).empty.isSome rest := h.ready ht hops
  have hle := h.op_le ht hops i
  have hpos : (s.inode i).iCount ≠ 0 := by
    simp [InodeOp.owns] at hle
    omega
  have hdrop : Follows s t ((s.setCount i ((s.inode i).iCount - 1)).goOn t rest) := by
    refine follows_same h ht hops [] rfl rfl (.inl (Nat.sub_le ..)) ?_ (fun j hj => ?_) hready
      (by simp)
    · simp [InodeOp.owns]
      omega
    · simp [InodeOp.owns, Ne.symm hj]
  unfold iput
  dsimp only
  rw [if_neg hpos]
  split
  · split
    · exact ⟨_, rfl, hdrop⟩
    · next hone =>
      refine ⟨_, rfl, follows_same h ht hops [] rfl rfl (.inl (Nat.zero_le _)) ?_ (fun j hj => ?_)
        hready (by simp)⟩
      · simp [InodeOp.owns]
        omega
      · simp [InodeOp.owns, Ne.symm hj]
  · split
    · exact ⟨_, rfl, hdrop⟩
    · next hdev =>
      split
      · exact ⟨_, rfl, follows_goOn h ht hops [.syncInodes 0, .waitOn i, .again i]
          (fun j => by simp [InodeOp.owns]) hready (by simpa [OpOk] using hdev)⟩
      · exact ⟨_, rfl, follows_iputAgain h ht hops (fun _ => rfl) hdev hready⟩

/-- A slot of which the task has the last reference is cleared. -/
theorem follows_zero (h : s.Inv kept) (ht : t < nrTasks)
    (hops : (s.task t).ops = .free i :: rest) (hone : (s.inode i).iCount ≤ 1) :
    Follows s t ((s.setInode i .zero).goOn t rest) := by
  have hready : Ready (s.task t).empty.isSome rest := h.ready ht hops
  have hle := h.op_le ht hops i
  have hshare := h.share_le ht i
  have howns := owns_cons (i := i) hops
  have hself : InodeOp.owns i (.free i) = 1 := if_pos rfl
  rw [hself] at howns
  -- the reference of the call is the only one
  have hall : (s.inode i).iCount = 1 ∧ ownsAll i rest = 0 ∧
      (s.task t).empty ≠ some i := by
    unfold share at hshare
    rw [howns] at hshare
    refine ⟨?_, ?_, fun hempty => ?_⟩
    · omega
    · omega
    · rw [if_pos hempty] at hshare
      omega
  obtain ⟨hcount, hrest, hnot⟩ := hall
  have hm : Moves s t i ((s.setInode i .zero).goOn t rest) := by
    refine moves_set ?_ (fun j hj => ?_) (.inl (Nat.zero_le _))
      (.inr ⟨?_, rfl, fun hdev => absurd rfl hdev, .inr (.inl rfl)⟩)
    · show 0 + _ = _ + (ITask.mk rest (s.task t).empty (s.task t).asked).owns i
      rw [howns, owns_mk, hcount, hrest, if_neg hnot]
    · show _ = (ITask.mk rest (s.task t).empty (s.task t).asked).owns j
      rw [owns_cons hops, owns_mk]
      simp [InodeOp.owns, Ne.symm hj]
    · unfold share
      rw [howns]
      omega
  refine ⟨i, hm, ?_⟩
  obtain ⟨-, hempty, hold⟩ := h.tasks t ht
  have htask : ((s.setInode i .zero).goOn t rest).task t = { s.task t with ops := rest } :=
    Function.update_self ..
  rw [htask]
  refine ⟨hready, fun e he => ?_, fun op hop => ?_⟩
  · have hne : e ≠ i := by
      rintro rfl
      exact hnot he
    rw [hm.inode e hne]
    exact hempty e he
  · refine hm.opOk h ht (hold op (hops ▸ List.mem_cons_of_mem _ hop)) fun j hj => ?_
    have hne : j ≠ i := by
      rintro rfl
      have hle' : op.owns j ≤ ownsAll j rest := List.le_sum_of_mem (List.mem_map_of_mem hop)
      omega
    rw [hm.inode j hne]

theorem follows_freeInode (h : s.Inv kept) (ht : t < nrTasks)
    (hops : (s.task t).ops = .free i :: rest) (hr : s.freeInode t i rest = .ok s') :
    Follows s t s' := by
  have hdev : s.OpOk (s.task t).asked (.free i) :=
    (h.tasks t ht).ops _ (hops ▸ List.mem_cons_self)
  unfold freeInode at hr
  dsimp only at hr
  rw [if_neg hdev] at hr
  split at hr
  · cases hr
  · next hcount =>
    split at hr
    · cases hr
    · cases hr
      exact follows_zero h ht hops (by omega)

/-! ### `sync_inodes`, `write_inode` and `read_inode` -/

theorem follows_syncInodes (h : s.Inv kept) (ht : t < nrTasks) {k : Nat}
    (hops : (s.task t).ops = .syncInodes k :: rest) : Follows s t (s.syncInodes t k rest) := by
  have hready : Ready (s.task t).empty.isSome rest := h.ready ht hops
  unfold syncInodes
  split
  · exact follows_goOn h ht hops [.waitOn k, .syncOne k, .syncInodes (k + 1)]
      (fun j => by simp [InodeOp.owns]) hready (by simp [OpOk])
  · exact follows_goOn h ht hops [] (fun j => rfl) hready (by simp)

theorem follows_syncOne (h : s.Inv kept) (ht : t < nrTasks) {k : Nat}
    (hops : (s.task t).ops = .syncOne k :: rest) : Follows s t (s.syncOne t k rest) := by
  have hready : Ready (s.task t).empty.isSome rest := h.ready ht hops
  unfold syncOne
  split
  · exact follows_goOn h ht hops [.write k] (fun j => rfl) hready (by simp [OpOk])
  · exact follows_goOn h ht hops [] (fun j => rfl) hready (by simp)

theorem follows_writeInode (h : s.Inv kept) (ht : t < nrTasks)
    (hops : (s.task t).ops = .write i :: rest) : Follows s t (s.writeInode t i rest) := by
  have hready : Ready (s.task t).empty.isSome rest := h.ready ht hops
  unfold writeInode
  dsimp only
  split
  · exact follows_goOn h ht hops [] (fun j => rfl) hready (by simp)
  · exact follows_same h ht hops [.wrote i] rfl rfl (.inl le_rfl) rfl (fun j _ => rfl) hready
      (by simp [OpOk])

/-! ### `get_empty_inode` -/

theorem pick_lt {k last : Nat} {inode : Option Nat} (hin : ∀ i, inode = some i → i < nrInode) :
    ∀ i, (s.pick k last inode).1 = some i → i < nrInode := by
  induction k generalizing last inode with
  | zero => exact hin
  | succ k ih =>
    unfold pick
    dsimp only
    generalize hnext : (if nrInode ≤ last + 1 then 0 else last + 1) = next
    have hlt : next < nrInode := by
      rw [← hnext]
      split
      · decide
      · omega
    have hsome : ∀ i, some next = some i → i < nrInode := by
      rintro i ⟨⟩
      exact hlt
    split
    · split
      · exact hsome
      · exact ih hsome
    · exact ih hin

/-- `last_inode` is of no consequence. -/
theorem Inv.of_lastInode (h : s.Inv kept) (last : Nat) : Inv kept { s with lastInode := last } := by
  refine ⟨h.count, h.unique, h.mount, h.devs, fun t ht => ?_⟩
  obtain ⟨hready, hempty, hops⟩ := h.tasks t ht
  have hleads : ∀ a b, s.Leads a b → Leads { s with lastInode := last } a b :=
    fun a b hl => hl.mono fun _ _ hm => hm
  refine ⟨hready, hempty, fun op hop => ?_⟩
  have hfit := hops op hop
  cases op with
  | search dev nr =>
    obtain ⟨hdev, a, ha, hl⟩ := hfit
    exact ⟨hdev, a, ha, hleads _ _ hl⟩
  | found i dev nr =>
    obtain ⟨hi, hdev, a, ha, hl⟩ := hfit
    exact ⟨hi, hdev, a, ha, hleads _ _ hl⟩
  | ret o =>
    cases o with
    | none => trivial
    | some i =>
      obtain ⟨hi, hdev, hfinal, a, ha, hl⟩ := hfit
      exact ⟨hi, hdev, hfinal, a, ha, hleads _ _ hl⟩
  | _ => exact hfit

theorem follows_getEmptyInode (h : s.Inv kept) (ht : t < nrTasks)
    (hops : (s.task t).ops = .getEmpty :: rest) (hr : s.getEmptyInode t rest = .ok s') :
    Follows s t s' := by
  obtain ⟨hempty, hready⟩ : (s.task t).empty.isSome = false ∧ Ready true rest := h.ready ht hops
  unfold getEmptyInode at hr
  split at hr
  · cases hr
  · next i last hpick =>
    cases hr
    have hlt : i < nrInode := pick_lt (fun i hi => by cases hi) i (congrArg Prod.fst hpick)
    obtain ⟨j, hm, hok⟩ := follows_goOn (h.of_lastInode last) ht hops
      [.waitOn i, .clean i] (fun j => by simp [InodeOp.owns]) ⟨hempty, hready⟩
      (by simp [OpOk, hlt])
    exact ⟨j, ⟨hm.inode, hm.task, hm.holds, hm.superBlock, hm.count, hm.grow, hm.ident⟩, hok⟩

theorem follows_clean (h : s.Inv kept) (ht : t < nrTasks)
    (hops : (s.task t).ops = .clean i :: rest) : Follows s t (s.clean t i rest) := by
  obtain ⟨hempty, hready⟩ : (s.task t).empty.isSome = false ∧ Ready true rest := h.ready ht hops
  have hlt : s.OpOk (s.task t).asked (.clean i) :=
    (h.tasks t ht).ops _ (hops ▸ List.mem_cons_self)
  unfold clean
  split
  · exact follows_goOn h ht hops [.write i, .waitOn i, .clean i]
      (fun j => by simp [InodeOp.owns]) ⟨hempty, hready⟩ (by simpa [OpOk] using hlt)
  · split
    · exact follows_goOn h ht hops [.getEmpty] (fun j => rfl) ⟨hempty, hready⟩ (by simp [OpOk])
    · next hcount =>
      have hzero : (s.inode i).iCount = 0 := by omega
      have hnone : (s.task t).empty = none := by simpa using hempty
      have hm : Moves s t i ((s.setInode i { MInode.zero with iCount := 1 }).setTask t
          { s.task t with ops := rest, empty := some i }) := by
        refine moves_set ?_ (fun j hj => ?_) (.inr (.inr hzero))
          (.inr ⟨?_, rfl, fun hdev => absurd rfl hdev, .inl hzero⟩)
        · rw [owns_cons hops, owns_mk, hnone]
          simp [InodeOp.owns, hzero]
          omega
        · rw [owns_cons hops, owns_mk, hnone]
          simp [InodeOp.owns, Ne.symm hj]
        · omega
      refine ⟨i, hm, ?_⟩
      have htask : ((s.setInode i { MInode.zero with iCount := 1 }).setTask t
          { s.task t with ops := rest, empty := some i }).task t =
          { s.task t with ops := rest, empty := some i } := Function.update_self ..
      rw [htask]
      refine ⟨hready, ?_, fun op hop => ?_⟩
      · rintro e ⟨⟩
        have hself : ((s.setInode i { MInode.zero with iCount := 1 }).setTask t
          { s.task t with ops := rest, empty := some i }).inode i =
            { MInode.zero with iCount := 1 } := Function.update_self ..
        rw [hself]
        exact ⟨hlt, rfl, rfl, rfl⟩
      · refine hm.opOk h ht ((h.tasks t ht).ops op (hops ▸ List.mem_cons_of_mem _ hop)) fun j hj => ?_
        -- nobody has a reference to the slot
        have hne : j ≠ i := by
          rintro rfl
          have hle : op.owns j ≤ ownsAll j rest := List.le_sum_of_mem (List.mem_map_of_mem hop)
          have hle' := h.op_le ht hops j
          omega
        rw [hm.inode j hne]

/-! ### `iget` -/

/-- What `iget` does with a slot that it returns, and with its empty one. -/
theorem follows_igetDone (h : s.Inv kept) (ht : t < nrTasks) {dev nr : BitVec 16}
    (hops : (s.task t).ops = .found i dev nr :: rest) (hident : (s.inode i).ident = (dev, nr))
    (hfinal : ∀ dev', ¬ s.Mounted (s.inode i).ident dev') :
    Follows s t ((s.setCount i ((s.inode i).iCount + 1)).igetDone t i rest) := by
  obtain ⟨hsome, hrest⟩ : (s.task t).empty.isSome = true ∧ rest = [] := h.ready ht hops
  obtain ⟨hlt, hdev, a, ha, hl⟩ : s.OpOk (s.task t).asked (.found i dev nr) :=
    (h.tasks t ht).ops _ (hops ▸ List.mem_cons_self)
  subst hrest
  obtain ⟨e, he⟩ := Option.isSome_iff_exists.mp hsome
  have hdone : (s.setCount i ((s.inode i).iCount + 1)).igetDone t i [] =
      (s.setInode i { s.inode i with iCount := (s.inode i).iCount + 1 }).setTask t
        { s.task t with ops := [.waitOn e, .iput e, .ret (some i)], empty := none } := by
    unfold igetDone
    dsimp only [setCount, setInode]
    rw [he]
  rw [hdone]
  have hdev' : (s.inode i).iDev ≠ 0 := by
    have hfst : (s.inode i).iDev = dev := congrArg Prod.fst hident
    rw [hfst]
    exact hdev
  have hm : Moves s t i ((s.setInode i { s.inode i with iCount := (s.inode i).iCount + 1 }).setTask t
      { s.task t with ops := [.waitOn e, .iput e, .ret (some i)], empty := none }) := by
    refine moves_set ?_ (fun j hj => ?_) (.inr (.inl hdev')) (.inl ⟨rfl, rfl⟩)
    · rw [owns_cons hops, owns_mk, he]
      simp [InodeOp.owns]
      omega
    · rw [owns_cons hops, owns_mk, he]
      simp [InodeOp.owns, Ne.symm hj]
  refine ⟨i, hm, ?_⟩
  have htask : ((s.setInode i { s.inode i with iCount := (s.inode i).iCount + 1 }).setTask t
      { s.task t with ops := [.waitOn e, .iput e, .ret (some i)], empty := none }).task t =
      { s.task t with ops := [.waitOn e, .iput e, .ret (some i)], empty := none } :=
    Function.update_self ..
  rw [htask]
  refine ⟨⟨rfl, by simp, rfl⟩, fun e he => (by cases he), fun op hop => ?_⟩
  have hself : ((s.setInode i { s.inode i with iCount := (s.inode i).iCount + 1 }).setTask t
      { s.task t with ops := [.waitOn e, .iput e, .ret (some i)], empty := none }).inode i =
      { s.inode i with iCount := (s.inode i).iCount + 1 } := Function.update_self ..
  have hfit : s.OpOk (s.task t).asked (.ret (some i)) := by
    exact ⟨hlt, hdev', hfinal, a, ha, hident ▸ hl⟩
  simp only [List.mem_cons, List.not_mem_nil, or_false] at hop
  rcases hop with rfl | rfl | rfl
  · trivial
  · trivial
  · refine hm.opOk h ht hfit fun j hj => ?_
    have hji : j = i := by
      by_contra hne
      simp [InodeOp.owns, Ne.symm hne] at hj
    rw [hji, hself]
    rfl

theorem follows_igetFound (h : s.Inv kept) (ht : t < nrTasks) {dev nr : BitVec 16}
    (hops : (s.task t).ops = .found i dev nr :: rest) : Follows s t (s.igetFound t i dev nr rest) := by
  obtain ⟨hsome, hrest⟩ : (s.task t).empty.isSome = true ∧ rest = [] := h.ready ht hops
  obtain ⟨hlt, hdev, a, ha, hl⟩ : s.OpOk (s.task t).asked (.found i dev nr) :=
    (h.tasks t ht).ops _ (hops ▸ List.mem_cons_self)
  unfold igetFound
  split
  · refine follows_goOn h ht hops [.search dev nr] (fun j => rfl) ⟨hsome, hrest⟩ fun op hop => ?_
    rw [List.mem_singleton.mp hop]
    exact ⟨hdev, a, ha, hl⟩
  · next hident =>
    have hident := not_not.mp hident
    have hfst : (s.inode i).iDev = dev := congrArg Prod.fst hident
    -- only this slot has the inode, so what is mounted there is mounted on it
    have honly : ∀ j, j < nrInode → (s.inode j).ident = (s.inode i).ident → j = i :=
      fun j hj heq => (h.unique i j hlt hj (hfst ▸ hdev) heq.symm).symm
    dsimp only
    split
    · next hmount =>
      have hmount' : (s.inode i).iMount = true := by simpa [setCount, setInode] using hmount
      cases hfind : s.superBlock.find? fun sb => sb.1 == i with
      | none =>
        have hfind' : (s.setCount i ((s.inode i).iCount + 1)).superBlock.find? (fun sb => sb.1 == i) =
          none := hfind
        rw [hfind']
        refine follows_igetDone h ht hops hident ?_
        rintro dev' ⟨j, sb, hj, -, heq, hsb, -⟩
        rw [honly j hj heq, hfind] at hsb
        cases hsb
      | some sb =>
        have hfind' : (s.setCount i ((s.inode i).iCount + 1)).superBlock.find? (fun sb => sb.1 == i) =
          some sb := hfind
        rw [hfind']
        have hmounted : s.Mounted (dev, nr) sb.2 := ⟨i, sb, hlt, hmount', hident, hfind, rfl⟩
        refine follows_same h ht hops [.waitOn i, .iput i, .search sb.2 rootIno] rfl rfl
          (.inr (hfst ▸ hdev)) ?_ (fun j hj => ?_) ?_ ?_
        · simp [InodeOp.owns]
        · simp [InodeOp.owns, Ne.symm hj]
        · rw [hrest]
          exact ⟨hsome, rfl⟩
        · intro op hop
          simp only [List.mem_cons, List.not_mem_nil, or_false] at hop
          rcases hop with rfl | rfl | rfl
          · trivial
          · trivial
          · exact ⟨h.devs sb (List.mem_of_find?_eq_some hfind), a, ha, hl.cross hmounted⟩
    · next hmount =>
      refine follows_igetDone h ht hops hident ?_
      rintro dev' ⟨j, sb, hj, hjm, heq, -, -⟩
      rw [honly j hj heq] at hjm
      exact hmount (by simpa [setCount, setInode] using hjm)

theorem follows_igetSearch (h : s.Inv kept) (ht : t < nrTasks) {dev nr : BitVec 16}
    (hops : (s.task t).ops = .search dev nr :: rest) : Follows s t (s.igetSearch t dev nr rest) := by
  obtain ⟨hsome, hrest⟩ : (s.task t).empty.isSome = true ∧ rest = [] := h.ready ht hops
  obtain ⟨hdev, a, ha, hl⟩ : s.OpOk (s.task t).asked (.search dev nr) :=
    (h.tasks t ht).ops _ (hops ▸ List.mem_cons_self)
  obtain ⟨e, he⟩ := Option.isSome_iff_exists.mp hsome
  obtain ⟨helt, hedev, hemount, heone⟩ := (h.tasks t ht).empty e he
  unfold igetSearch
  cases hfind : (List.range nrInode).find? fun i => (s.inode i).ident == (dev, nr) with
  | some i =>
    have hi := List.mem_range.mp (List.mem_of_find?_eq_some hfind)
    refine follows_goOn h ht hops [.waitOn i, .found i dev nr]
      (fun j => by simp [InodeOp.owns]) ⟨hsome, hrest⟩ fun op hop => ?_
    simp only [List.mem_cons, List.not_mem_nil, or_false] at hop
    rcases hop with rfl | rfl
    · trivial
    · exact ⟨hi, hdev, a, ha, hl⟩
  | none =>
    dsimp only
    rw [he]
    dsimp only
    subst hrest
    have hnew : ∀ j < nrInode, (s.inode j).ident ≠ (dev, nr) := fun j hj heq => by
      have hnot := List.find?_eq_none.mp hfind j (List.mem_range.mpr hj)
      simp [heq] at hnot
    have hle := h.share_le ht e
    have hown : (s.task t).owns e = 1 := by
      rw [owns_cons hops, he]
      simp [InodeOp.owns]
    have hm : Moves s t e ((s.setInode e { s.inode e with iDev := dev, iNum := nr }).setTask t
        { s.task t with ops := [.read e, .ret (some e)], empty := none }) := by
      refine moves_set ?_ (fun j hj => ?_) (.inl le_rfl)
        (.inr ⟨?_, hemount, fun _ => hnew, .inr (.inr ⟨hedev, he⟩)⟩)
      · rw [hown, owns_mk]
        simp [InodeOp.owns]
      · rw [owns_cons hops, owns_mk, he]
        simp [InodeOp.owns, Ne.symm hj]
      · unfold share
        omega
    refine ⟨e, hm, ?_⟩
    have htask : ((s.setInode e { s.inode e with iDev := dev, iNum := nr }).setTask t
        { s.task t with ops := [.read e, .ret (some e)], empty := none }).task t =
        { s.task t with ops := [.read e, .ret (some e)], empty := none } := Function.update_self ..
    have hself : ((s.setInode e { s.inode e with iDev := dev, iNum := nr }).setTask t
        { s.task t with ops := [.read e, .ret (some e)], empty := none }).inode e =
        { s.inode e with iDev := dev, iNum := nr } := Function.update_self ..
    rw [htask]
    refine ⟨⟨rfl, by simp, rfl⟩, fun e he => (by cases he), fun op hop => ?_⟩
    simp only [List.mem_cons, List.not_mem_nil, or_false] at hop
    rcases hop with rfl | rfl
    · trivial
    · refine ⟨helt, ?_, ?_, a, ha, ?_⟩
      · rw [hself]
        exact hdev
      · -- no slot had the inode, so nothing is mounted on it
        rw [hself]
        intro dev' hmounted
        obtain ⟨j, sb, hj, -, heq, -⟩ := (hm.mounted h ht).mp hmounted
        exact hnew j hj heq
      · rw [hself]
        exact hm.leads h ht hl

/-! ### Any operation -/

theorem follows_runOp (h : s.Inv kept) (ht : t < nrTasks) {op : InodeOp} {d : DInode}
    (hops : (s.task t).ops = op :: rest) (hr : s.runOp t d rest op = some (.ok s')) :
    Follows s t s' := by
  cases op with
  | waitOn i =>
    simp only [runOp] at hr
    split at hr
    · cases hr
    · cases hr
      exact follows_goOn h ht hops [] (fun j => rfl) (h.ready ht hops) (by simp)
  | iput i =>
    obtain ⟨s₁, heq, hf⟩ := follows_iput h ht hops
    cases hr.symm.trans (congrArg some heq)
    exact hf
  | again i =>
    cases hr
    have hdev : s.OpOk (s.task t).asked (.again i) :=
      (h.tasks t ht).ops _ (hops ▸ List.mem_cons_self)
    exact follows_iputAgain h ht hops (fun _ => rfl) hdev (h.ready ht hops)
  | free i => exact follows_freeInode h ht hops (Option.some.inj hr)
  | syncInodes k =>
    cases hr
    exact follows_syncInodes h ht hops
  | syncOne k =>
    cases hr
    exact follows_syncOne h ht hops
  | write i =>
    simp only [runOp] at hr
    split at hr
    · cases hr
    · cases hr
      exact follows_writeInode h ht hops
  | wrote i =>
    cases hr
    have hready : Ready (s.task t).empty.isSome rest := h.ready ht hops
    exact follows_same h ht hops [.unlock i] rfl rfl (.inl le_rfl) rfl (fun j _ => rfl)
      hready (by simp [OpOk])
  | unlock i =>
    cases hr
    exact follows_same h ht hops [] rfl rfl (.inl le_rfl) rfl (fun j _ => rfl)
      (h.ready ht hops) (by simp)
  | getEmpty => exact follows_getEmptyInode h ht hops (Option.some.inj hr)
  | clean i =>
    cases hr
    exact follows_clean h ht hops
  | search dev nr =>
    cases hr
    exact follows_igetSearch h ht hops
  | found i dev nr =>
    cases hr
    exact follows_igetFound h ht hops
  | read i =>
    simp only [runOp] at hr
    split at hr
    · cases hr
    · cases hr
      have hready : Ready (s.task t).empty.isSome rest := h.ready ht hops
      exact follows_same h ht hops [.fetched i] rfl rfl (.inl le_rfl) rfl (fun j _ => rfl)
        hready (by simp [OpOk])
  | fetched i =>
    cases hr
    have hready : Ready (s.task t).empty.isSome rest := h.ready ht hops
    exact follows_same h ht hops [.unlock i] rfl rfl (.inl le_rfl) rfl (fun j _ => rfl)
      hready (by simp [OpOk])
  | ret o => cases hr

/-- A task without a call makes one. -/
theorem follows_call (h : s.Inv kept) (ht : t < nrTasks) (hops : (s.task t).ops = []) {T' : ITask}
    (hinode : s'.inode = s.inode) (htask : s'.task = Function.update s.task t T') {H : Nat → Nat}
    (hholds : s'.holds = Function.update s.holds t H) (hsuper : s'.superBlock = s.superBlock)
    (howns : ∀ j, s.holds t j = H j + T'.owns j) (hready : Ready T'.empty.isSome T'.ops)
    (hempty : T'.empty = none) (hfit : ∀ op ∈ T'.ops, s'.OpOk T'.asked op) : Follows s t s' := by
  have hnone : (s.task t).empty = none := by
    have hr := (h.tasks t ht).ready
    rw [hops] at hr
    simpa [Ready] using hr
  have hzero : ∀ j, (s.task t).owns j = 0 := fun j => by simp [ITask.owns, hops, hnone]
  have hm : Moves s t 0 s' := by
    refine moves_of (n := s.inode 0) (by rw [hinode, Function.update_eq_self]) htask hholds hsuper ?_
      (fun j _ => ?_) (.inl le_rfl) (.inl ⟨rfl, rfl⟩)
    · have h0 := howns 0
      rw [hzero]
      omega
    · have hj := howns j
      rw [hzero]
      omega
  refine ⟨0, hm, ?_⟩
  rw [htask, Function.update_self]
  refine ⟨hready, fun e he => ?_, hfit⟩
  rw [hempty] at he
  cases he

/-- The reference of a call to its inode goes to the task. -/
theorem follows_returned (h : s.Inv kept) (ht : t < nrTasks) (hops : (s.task t).ops = [.ret (some i)]) :
    Follows s t ((s.setHolds t i (s.holds t i + 1)).setTask t ⟨[], none, none⟩) := by
  obtain ⟨hnone, -, -⟩ : (s.task t).empty.isSome = false ∧ some i ≠ none ∧ [] = [] := h.ready ht hops
  have hempty : (s.task t).empty = none := by simpa using hnone
  have howns : ∀ j, (s.task t).owns j = if i = j then 1 else 0 := fun j => by
    rw [owns_cons hops, hempty]
    simp [InodeOp.owns]
  refine ⟨i, moves_of (n := s.inode i) (Function.update_eq_self ..).symm rfl rfl rfl ?_
    (fun j hj => ?_) (.inl le_rfl) (.inl ⟨rfl, rfl⟩), ?_⟩
  · rw [howns, Function.update_self, if_pos rfl]
    simp [ITask.owns]
    omega
  · rw [howns, Function.update_of_ne hj, if_neg (Ne.symm hj)]
    simp [ITask.owns]
  · have htask : ((s.setHolds t i (s.holds t i + 1)).setTask t ⟨[], none, none⟩).task t =
      ⟨[], none, none⟩ := Function.update_self ..
    rw [htask]
    exact ⟨rfl, fun e he => (by cases he), fun op hop => (by cases hop)⟩

/-- A task that holds an inode changes what is in it. -/
theorem follows_touch (h : s.Inv kept) (ht : t < nrTasks) (d : DInode) (dirt : Bool) :
    Follows s t (s.setInode i { s.inode i with disk := d, iDirt := dirt }) := by
  have hm : Moves s t i (s.setInode i { s.inode i with disk := d, iDirt := dirt }) :=
    moves_of rfl (Function.update_eq_self ..).symm (Function.update_eq_self ..).symm rfl rfl (fun j _ => rfl)
      (.inl le_rfl) (.inl ⟨rfl, rfl⟩)
  have hident : ∀ j, ((s.setInode i { s.inode i with disk := d, iDirt := dirt }).inode j).ident =
      (s.inode j).ident ∧
      ((s.setInode i { s.inode i with disk := d, iDirt := dirt }).inode j).iMount =
        (s.inode j).iMount ∧
      ((s.setInode i { s.inode i with disk := d, iDirt := dirt }).inode j).iCount =
        (s.inode j).iCount := by
    intro j
    by_cases hj : j = i
    · subst hj
      simp [setInode, MInode.ident]
    · rw [hm.inode j hj]
      exact ⟨rfl, rfl, rfl⟩
  obtain ⟨hready, hempty, hfit⟩ := h.tasks t ht
  refine ⟨i, hm, hready, fun e he => ?_, fun op hop => hm.opOk h ht (hfit op hop) fun j _ => (hident j).1⟩
  obtain ⟨hlt, hdev, hmount, hone⟩ := hempty e he
  have hdev' := congrArg Prod.fst (hident e).1
  exact ⟨hlt, hdev'.trans hdev, (hident e).2.1.trans hmount, (hident e).2.2.trans hone⟩

/-- A task that holds an inode takes another reference to it. -/
theorem follows_dup (h : s.Inv kept) (ht : t < nrTasks) (hi : 0 < s.holds t i) :
    Follows s t ((s.setCount i ((s.inode i).iCount + 1)).setHolds t i (s.holds t i + 1)) := by
  have htask : s.task = Function.update s.task t (s.task t) := (Function.update_eq_self ..).symm
  have hm : Moves s t i ((s.setCount i ((s.inode i).iCount + 1)).setHolds t i (s.holds t i + 1)) := by
    refine moves_of rfl htask rfl rfl ?_ (fun j hj => ?_)
      (.inr (.inr (.inr hi))) (.inl ⟨rfl, rfl⟩)
    · rw [Function.update_self]
      show (s.inode i).iCount + 1 + _ + _ = _
      omega
    · rw [Function.update_of_ne hj]
      rfl
  have hident : ∀ j, (((s.setCount i ((s.inode i).iCount + 1)).setHolds t i
      (s.holds t i + 1)).inode j).ident = (s.inode j).ident := by
    intro j
    by_cases hj : j = i
    · subst hj
      simp [setCount, setInode, setHolds, MInode.ident]
    · rw [hm.inode j hj]
  obtain ⟨hready, hempty, hfit⟩ := h.tasks t ht
  refine ⟨i, hm, hready, fun e he => ?_, fun op hop => hm.opOk h ht (hfit op hop) fun j _ => hident j⟩
  obtain ⟨hlt, hdev, hmount, hone⟩ := hempty e he
  -- the only reference to the empty slot is that of the call
  have hne : e ≠ i := by
    rintro rfl
    have hle := h.share_le ht e
    have he' : (s.task t).empty = some e := he
    have hown : 0 < (s.task t).owns e := by
      rw [ITask.owns, if_pos he']
      omega
    unfold share at hle
    omega
  rw [hm.inode e hne]
  exact ⟨hlt, hdev, hmount, hone⟩

end Ops

/-- A step of the task `t`. -/
theorem Step.follows {e : InodeEvent} (hstep : Step s e (.ok s')) (h : s.Inv kept) :
    ∃ t, t < nrTasks ∧ Follows s t s' := by
  generalize hr : Except.ok s' = r at hstep
  have hsame : ∀ t, s.holds = Function.update s.holds t (s.holds t) :=
    fun t => (Function.update_eq_self ..).symm
  cases hstep with
  | @iget t dev nr ht hops =>
    split at hr
    · cases hr
    · next hdev =>
      cases hr
      refine ⟨t, ht, follows_call h ht hops rfl rfl (hsame t) rfl
        (fun j => by simp [ITask.owns, InodeOp.owns]) ⟨rfl, rfl, rfl⟩ rfl fun op hop => ?_⟩
      simp only [List.mem_cons, List.not_mem_nil, or_false] at hop
      rcases hop with rfl | rfl
      · trivial
      · exact ⟨hdev, (dev, nr), rfl, .refl⟩
  | @iput t i ht hops hi =>
    cases hr
    refine ⟨t, ht, follows_call h ht hops rfl rfl rfl rfl (fun j => ?_) rfl rfl fun op hop => ?_⟩
    · by_cases hj : j = i
      · subst hj
        simp [ITask.owns, InodeOp.owns]
        omega
      · simp [ITask.owns, InodeOp.owns, hj, Ne.symm hj]
    · simp only [List.mem_cons, List.not_mem_nil, or_false] at hop
      rcases hop with rfl | rfl <;> trivial
  | @sync t ht hops =>
    cases hr
    refine ⟨t, ht, follows_call h ht hops rfl rfl (hsame t) rfl
      (fun j => by simp [ITask.owns, InodeOp.owns]) rfl rfl fun op hop => ?_⟩
    rw [List.mem_singleton.mp hop]
    trivial
  | @run t op rest d r ht hops hrun =>
    subst hr
    exact ⟨t, ht, follows_runOp h ht hops hrun⟩
  | @returned t o ht hops =>
    obtain ⟨-, ho, -⟩ : (s.task t).empty.isSome = false ∧ o ≠ none ∧ [] = [] := h.ready ht hops
    cases o with
    | none => exact absurd rfl ho
    | some i =>
      cases hr
      exact ⟨t, ht, follows_returned h ht hops⟩
  | @touch t i d dirt ht hi =>
    cases hr
    exact ⟨t, ht, follows_touch h ht d dirt⟩
  | @dup t i ht hi =>
    cases hr
    exact ⟨t, ht, follows_dup h ht hi⟩

/-! ## Runs -/

/-- A start: no call is in progress, no two slots have the same inode, and what is mounted is kept. -/
structure Start (kept : Nat → Nat) (s : ITable) : Prop where
  idle : ∀ t, s.task t = ⟨[], none, none⟩
  count : ∀ i, (s.inode i).iCount = (∑ t ∈ Finset.range nrTasks, s.holds t i) + kept i
  unique : ∀ i j, i < nrInode → j < nrInode → (s.inode i).iDev ≠ 0 →
    (s.inode i).ident = (s.inode j).ident → i = j
  mount : ∀ i, (s.inode i).iMount = true → 0 < kept i ∧ (s.inode i).iDev ≠ 0
  devs : ∀ sb ∈ s.superBlock, sb.2 ≠ 0

theorem Start.inv (h : s.Start kept) : s.Inv kept := by
  refine ⟨fun i => ?_, h.unique, h.mount, h.devs, fun t _ => ?_⟩
  · have hshare : ∀ t, s.share t i = s.holds t i := fun t => by
      simp [share, h.idle t, ITask.owns]
    rw [h.count i, owned]
    simp only [hshare]
  · rw [h.idle t]
    exact ⟨rfl, fun e he => (by cases he), fun op hop => (by cases hop)⟩

theorem Start.run {es : List InodeEvent} (h : s.Start kept)
    (hrun : Lib.Run (fun s e s' => Step s e (.ok s')) s es s') :
    s'.Inv kept ∧ ∀ a dev, s'.Mounted a dev ↔ s.Mounted a dev := by
  refine Lib.Run.inv (I := fun s' => s'.Inv kept ∧ ∀ a dev, s'.Mounted a dev ↔ s.Mounted a dev)
    ?_ ⟨h.inv, fun _ _ => Iff.rfl⟩ hrun
  rintro s₁ e s₂ ⟨hinv, hmounted⟩ hstep
  obtain ⟨t, ht, i, hm, hok⟩ := hstep.follows hinv
  exact ⟨hinv.move ht hm hok, fun a dev => (hm.mounted hinv ht).trans (hmounted a dev)⟩

/-- In every state of every run: no two slots have the inode of one device and number, and `i_count` of
each slot counts the references to it. The next step changes the inode of a slot that is in use only if
it drops the last reference, or if the slot is the empty one of an `iget`. And an `iget` returns a slot,
with a reference to it, that has the inode asked for, or the root of the last file system mounted over
it. -/
theorem iget_unique {es : List InodeEvent} (hstart : s.Start kept)
    (hrun : Lib.Run (fun s e s' => Step s e (.ok s')) s es s') :
    (∀ i j, i < nrInode → j < nrInode → (s'.inode i).iDev ≠ 0 →
      (s'.inode i).ident = (s'.inode j).ident → i = j) ∧
    (∀ i, (s'.inode i).iCount = s'.owned i + kept i) ∧
    (∀ e s'', Step s' e (.ok s'') → ∀ i, 0 < (s'.inode i).iCount →
      (s''.inode i).ident = (s'.inode i).ident ∨ (s''.inode i).iCount = 0 ∨
        ((s'.inode i).iDev = 0 ∧ ∃ t, (s'.task t).empty = some i)) ∧
    ∀ t o s'', Step s' (.returned t o) (.ok s'') → ∃ i a, o = some i ∧ (s'.task t).asked = some a ∧
      s.Leads a (s'.inode i).ident ∧ (∀ dev, ¬ s.Mounted (s'.inode i).ident dev) ∧
      s''.inode = s'.inode ∧ s''.holds t i = s'.holds t i + 1 ∧ 0 < (s''.inode i).iCount := by
  obtain ⟨hinv, hmounted⟩ := hstart.run hrun
  refine ⟨hinv.unique, hinv.count, fun e s'' hstep i hpos => ?_, fun t o s'' hstep => ?_⟩
  · obtain ⟨t, ht, j, hm, -⟩ := hstep.follows hinv
    by_cases hij : i = j
    · subst hij
      rcases hm.ident with ⟨hsame, -⟩ | ⟨-, -, -, hzero | hzero | ⟨hdev, hempty⟩⟩
      · exact .inl hsame
      · omega
      · exact .inr (.inl hzero)
      · exact .inr (.inr ⟨hdev, t, hempty⟩)
    · rw [hm.inode i hij]
      exact .inl rfl
  · generalize hr : Except.ok s'' = r at hstep
    cases hstep with
    | returned ht hops =>
      obtain ⟨-, ho, -⟩ : (s'.task t).empty.isSome = false ∧ o ≠ none ∧ [] = [] :=
        hinv.ready ht hops
      cases o with
      | none => exact absurd rfl ho
      | some i =>
        cases hr
        obtain ⟨-, -, hfinal, a, ha, hl⟩ : s'.OpOk (s'.task t).asked (.ret (some i)) :=
          (hinv.tasks t ht).ops _ (hops ▸ List.mem_cons_self)
        refine ⟨i, a, rfl, ha, hl.mono fun b dev => (hmounted b dev).mp,
          fun dev hm => hfinal dev ((hmounted _ dev).mpr hm), rfl, ?_, ?_⟩
        · show Function.update s'.holds t _ t i = _
          rw [Function.update_self, Function.update_self]
        · have hle := hinv.op_le ht hops i
          have hown : InodeOp.owns i (.ret (some i)) = 1 := if_pos rfl
          show 0 < (s'.inode i).iCount
          omega

theorem Step.cast {e : InodeEvent} {r r' : Except String ITable} (h : Step s e r) (hr : r = r') :
    Step s e r' :=
  hr ▸ h

/-- A table that has no inode. -/
def emptyTable : ITable where
  inode _ := .zero
  lastInode := 0
  task _ := ⟨[], none, none⟩
  holds _ _ := 0
  superBlock := []

theorem emptyTable_start : emptyTable.Start fun _ => 0 := by
  refine ⟨fun _ => rfl, fun i => ?_, fun i j _ _ hdev => absurd rfl hdev, fun i hi => ?_, fun sb hsb => ?_⟩
  · show 0 = (∑ t ∈ Finset.range nrTasks, 0) + 0
    rw [Finset.sum_const_zero]
  · cases hi
  · cases hsb

/-- Task 0 asks for inode 5 of device 0x301, and gets it in a slot of the table. -/
theorem iget_unique_one : ∃ (s s' : ITable) (i : Nat), Step s (.returned 0 (some i)) (.ok s') ∧
    (s.inode i).ident = (0x301, 5) ∧ 0 < (s'.inode i).iCount := by
  have d : DInode := ⟨0o100644, 1⟩
  have ht : 0 < nrTasks := by decide
  obtain ⟨s₁, h₁, s₂, h₂, s₃, h₃, s₄, h₄, s₅, h₅, s₆, h₆, s₇, h₇, s₈, h₈, s₉, h₉, hident⟩ :
      ∃ s₁, Step emptyTable (.iget 0 0x301 5) (.ok s₁) ∧ ∃ s₂, Step s₁ (.run 0) (.ok s₂) ∧
      ∃ s₃, Step s₂ (.run 0) (.ok s₃) ∧ ∃ s₄, Step s₃ (.run 0) (.ok s₄) ∧
      ∃ s₅, Step s₄ (.run 0) (.ok s₅) ∧ ∃ s₆, Step s₅ (.run 0) (.ok s₆) ∧
      ∃ s₇, Step s₆ (.run 0) (.ok s₇) ∧ ∃ s₈, Step s₇ (.run 0) (.ok s₈) ∧
      ∃ s₉, Step s₈ (.returned 0 (some 1)) (.ok s₉) ∧ (s₈.inode 1).ident = (0x301, 5) := by
    refine ⟨_, .cast (.iget ht rfl) rfl, _, .cast (.run (d := d) ht rfl rfl) rfl,
      _, .cast (.run (d := d) ht rfl rfl) rfl, _, .cast (.run (d := d) ht rfl rfl) rfl,
      _, .cast (.run (d := d) ht rfl rfl) rfl, _, .cast (.run (d := d) ht rfl rfl) rfl,
      _, .cast (.run (d := d) ht rfl rfl) rfl, _, .cast (.run (d := d) ht rfl rfl) rfl,
      _, .cast (.returned ht rfl) rfl, rfl⟩
  obtain ⟨-, -, -, hreturned⟩ := iget_unique emptyTable_start
    (.snoc (.snoc (.snoc (.snoc (.snoc (.snoc (.snoc (.snoc .nil h₁) h₂) h₃) h₄) h₅) h₆) h₇) h₈)
  obtain ⟨i, a, hi, -, -, -, -, -, hpos⟩ := hreturned 0 (some 1) s₉ h₉
  cases hi
  exact ⟨s₈, s₉, 1, h₉, hident, hpos⟩

end ITable

end Linux011.Fs
