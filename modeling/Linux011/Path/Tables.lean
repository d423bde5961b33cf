import Linux011.Path.Files
import Linux011.Path.Ledger

/-!
# The tables stand for the files

In a calm system the inode table and the buffers are copies of the files: an inode is in the table as its file
says, or on the disk, and a dirty one is in the table. Nobody has a lock, and requests succeed. The calls of
this module and the next ones then return, and leave the files as they are.

`base` counts the references to the slots of the table that do not belong to the call, and `held` those that
do; the slots with references of the first kind keep their files.
-/

namespace Linux011.Path

open Linux011.Fs Linux011.Lib

/-- The inode without its count, and whether or not it is dirty. -/
def MInode.idle (n : MInode) : MInode := { n with iCount := 0, iDirt := false }

theorem node_of_idle {n n' : MInode} (h : n'.idle = n.idle) : n'.node = n.node := by
  have hnode := congrArg MInode.node h
  exact hnode

theorem stored_of_idle {n n' : MInode} (h : n'.idle = n.idle) : n'.stored = n.stored := by
  have hstored := congrArg MInode.stored h
  exact hstored

namespace State

/-- The inode on the disk, or in the buffer of its block. -/
def diskInode (s : State) (k : Nat) (n : Node) : DiskInode :=
  (getDInode ((s.cache n.1).contents (inodeBlock (s.superBlock k) n.2)) (numIndex n.2 % 32) MInode.zero).stored

end State

/-- What a call goes by: the files, the state at its start, and the references of others. The slots `point` are
those of the inodes that devices are mounted on. -/
structure View where
  files : Files
  start : State
  base : Nat → Nat
  node : Nat → Node
  point : Nat → Prop
  first : ∀ dev, files.first dev = (start.getSuper dev).map fun k => (start.superBlock k).sFirstdatazone
  inodes : ∀ dev k, start.getSuper dev = some k → ∀ nr, 0 < nr → nr ≤ files.inodes dev →
    inodeBlock (start.superBlock k) nr < (start.superBlock k).sFirstdatazone
  cover : ∀ dev k, start.getSuper dev = some k → files.cover dev = (start.superBlock k).sImount.map node
  imount : ∀ dev k m, start.getSuper dev = some k → (start.superBlock k).sImount = some m →
    m < nrInode ∧ point m
  pinned : ∀ i, point i → base i ≠ 0
  onto : ∀ i k, start.mountedOn i = some k → ∃ k', start.getSuper (start.superBlock k).sDev = some k'

variable {V : View} {i : Nat}

/-- An inode in the table, with `held` references of the call. -/
structure Slot (V : View) (i held : Nat) (n : MInode) : Prop where
  count : n.iCount = V.base i + held
  pinned : V.base i ≠ 0 → n.node = V.node i
  pipe : n.iPipe = true → n.iDev = 0
  num : n.iNum < 2 ^ 16
  known : n.iDev ≠ 0 → n.iCount ≠ 0 → ∃ k, V.start.getSuper n.iDev = some k
  dirty : n.iDirt = true → ∃ k, V.start.getSuper n.iDev = some k ∧
    inodeBlock (V.start.superBlock k) n.iNum < (V.start.superBlock k).sFirstdatazone
  copy : ∀ k, V.start.getSuper n.iDev = some k → n.stored = V.files.file n.node
  mounted : n.iDev ≠ 0 → V.files.mounted n.node =
    if n.iMount then (V.start.mountedOn i).map fun k => (V.start.superBlock k).sDev else none
  mount : n.iMount = true → V.point i

/-- The tables stand for the files, apart from the locks; the call holds the inodes `r` and the buffers `q`. -/
structure Backed (V : View) (r : Nat → Nat) (q : Key → Nat) (s : State) : Prop where
  frame : s = { V.start with cache := s.cache, inode := s.inode, lastInode := s.lastInode }
  bufs : s.bufs = V.start.bufs + q
  uptodate : ∀ dev b, q (dev, b) ≠ 0 → ((s.cache dev).head b).uptodate = true
  works : ∀ dev b, (s.cache dev).works b = true
  coherent : ∀ dev, (s.cache dev).Coherent
  slot : ∀ i < nrInode, Slot V i (r i) (s.inode i)
  unique : ∀ i < nrInode, ∀ j < nrInode, (s.inode i).iDev ≠ 0 → (s.inode i).node = (s.inode j).node → i = j
  disk : ∀ n k, V.start.getSuper n.1 = some k → n.2 < 2 ^ 16 →
    (∀ i < nrInode, (s.inode i).node = n → (s.inode i).iDirt = false) → s.diskInode k n = V.files.file n
  data : ∀ dev k b, V.start.getSuper dev = some k → (V.start.superBlock k).sFirstdatazone ≤ b →
    (s.cache dev).contents b = V.files.block dev b
  unmounted : ∀ n : Node, n.1 ≠ 0 → (∀ i < nrInode, (s.inode i).node ≠ n) → V.files.mounted n = none

structure Stands (V : View) (r : Nat → Nat) (q : Key → Nat) (s : State) : Prop extends Backed V r q s where
  unlocked : ∀ i < nrInode, (s.inode i).iLock = false

/-- The call returns, where `Q` holds of what it returns and of the state. -/
abbrev Runs {α : Type} (x : Call α) (m : Machine) (Q : α → State → Prop) : Prop :=
  Ends (fun _ _ => False) x m fun a m' => Q a m'.state

section

variable {α β : Type} {x : Call α} {f : α → Call β} {m : Machine} {Q : α → State → Prop} {R : β → State → Prop}

theorem Runs.bind (hx : Runs x m Q) (hf : ∀ a m', Q a m'.state → Runs (f a) m' R) : Runs (x >>= f) m R :=
  Ends.bind hx hf

theorem Runs.mono {Q' : α → State → Prop} (hx : Runs x m Q) (h : ∀ a s, Q a s → Q' a s) : Runs x m Q' :=
  Ends.mono hx fun a m' => h a m'.state

theorem Runs.ret {a : α} (h : Q a m.state) : Runs (pure a) m Q := h

/-- A first call that is known to return. -/
theorem runs_ok {a : α} {m' : Machine} (hx : x m = .ok a m') (h : Runs (f a) m' R) : Runs (x >>= f) m R := by
  have hrun : (x >>= f) m = f a m' := by
    show EStateM.bind x f m = _
    rw [EStateM.bind, hx]
  unfold Runs Ends
  rw [hrun]
  exact h

theorem runs_look {g : State → α} (h : Runs (f (g m.state)) m R) : Runs (look g >>= f) m R := h

theorem runs_state {f : State → Call β} (h : Runs (f m.state) m R) : Runs (look id >>= f) m R := h

/-- A slot of the table is replaced. -/
def Machine.setInode (i : Nat) (g : MInode → MInode) (m : Machine) : Machine :=
  { m with state := { m.state with inode := Function.update m.state.inode i (g (m.state.inode i)) } }

theorem runs_setInode {g : MInode → MInode} {f : Unit → Call β} (h : Runs (f ()) (m.setInode i g) R) :
    Runs (setInode i g >>= f) m R := h

/-- A loop keeps an invariant. -/
theorem runs_forM {γ : Type} {f : γ → Call Unit} {I : State → Prop} {l : List γ}
    (hf : ∀ a ∈ l, ∀ m : Machine, I m.state → Runs (f a) m fun _ s => I s) (m : Machine) (h : I m.state) :
    Runs (l.forM f) m fun _ s => I s := by
  induction l generalizing m with
  | nil => exact h
  | cons a l ih =>
    refine Runs.bind (hf a (List.mem_cons_self ..) m h) fun _ m' h' => ?_
    exact ih (fun b hb => hf b (List.mem_cons_of_mem _ hb)) m' h'

theorem runs_mark {t : Turn} {f : Unit → Call β} (h : ∀ L, Runs (f ()) { m with log := L } R) :
    Runs (mark t >>= f) m R := h _

end

namespace Backed

variable {r : Nat → Nat} {q : Key → Nat} {s : State} {m : Machine} (h : Backed V r q s)

include h

theorem current : s.current = V.start.current := by
  have hcurrent := congrArg State.current h.frame
  exact hcurrent

theorem superBlock : s.superBlock = V.start.superBlock := by
  have hsuper := congrArg State.superBlock h.frame
  exact hsuper

theorem getSuper (dev : Nat) : s.getSuper dev = V.start.getSuper dev := by
  unfold State.getSuper
  rw [h.superBlock]

theorem mountedOn (i : Nat) : s.mountedOn i = V.start.mountedOn i := by
  unfold State.mountedOn
  rw [h.superBlock]

/-! ## Buffers -/

omit h in
/-- The cache of a device is replaced by one with the same contents. -/
theorem setCache {q' : Key → Nat} {dev : Nat} {c' : Cache} (h : Backed V r q m.state)
    (hsame : Cache.Same (m.state.cache dev) c') (hbufs : (m.setCache dev c').state.bufs = V.start.bufs + q')
    (hup : ∀ b, q' (dev, b) ≠ 0 → (c'.head b).uptodate = true)
    (hold : ∀ d b, d ≠ dev → q' (d, b) ≠ 0 → q (d, b) ≠ 0) : Backed V r q' (m.setCache dev c').state := by
  have hcache (d : Nat) : Cache.Same (m.state.cache d) ((m.setCache dev c').state.cache d) := by
    show Cache.Same _ (Function.update m.state.cache dev c' d)
    rcases eq_or_ne d dev with rfl | hne
    · rw [Function.update_self]
      exact hsame
    · rw [Function.update_of_ne hne]
      exact Cache.Same.refl _
  refine { h with frame := ?_, bufs := hbufs, uptodate := ?_, works := ?_, coherent := ?_, disk := ?_, data := ?_ }
  · have hframe := congrArg (fun s : State => { s with cache := Function.update m.state.cache dev c' }) h.frame
    exact hframe
  · intro d b hq
    show ((Function.update m.state.cache dev c' d).head b).uptodate = true
    rcases eq_or_ne d dev with rfl | hne
    · rw [Function.update_self]
      exact hup b hq
    · rw [Function.update_of_ne hne]
      exact h.uptodate d b (hold d b hne hq)
  · intro d b
    rw [(hcache d).works]
    exact h.works d b
  · exact fun d => (hcache d).coherent (h.coherent d)
  · intro n k hk hn hclean
    have hdisk := h.disk n k hk hn hclean
    unfold State.diskInode at hdisk ⊢
    rw [(hcache n.1).contents]
    exact hdisk
  · intro d k b hk hb
    rw [(hcache d).contents]
    exact h.data d k b hk hb

omit h in
theorem bread_eq (h : Backed V r q s) {dev : Nat} (hcache : m.state.cache dev = s.cache dev) (b : Nat) :
    ∃ c', Path.bread dev b m = .ok true (m.setCache dev c') ∧ Cache.Same (s.cache dev) c' ∧
      (c'.head b).uptodate = true ∧ c'.held = Function.update (s.cache dev).held b ((s.cache dev).held b + 1) := by
  have hspec := Cache.bread_spec b (s.cache dev)
  cases hread : (s.cache dev).bread b with
  | error e => exact (hspec.of_error e hread).elim
  | ok p =>
    obtain ⟨got, c'⟩ := p
    obtain ⟨hsame, ⟨hgot, hup, hheld⟩ | ⟨-, hfail, -⟩⟩ := hspec.of_ok _ hread
    · refine ⟨c', ?_, hsame, hup, hheld⟩
      have hrun : Path.bread dev b m = onCache dev ((m.state.cache dev).bread b) m := rfl
      rw [hrun, hcache, hread]
      subst hgot
      rfl
    · rw [h.works] at hfail
      cases hfail

omit h in
theorem gained (h : Backed V r q m.state) {dev b : Nat} {c' : Cache} (hsame : Cache.Same (m.state.cache dev) c')
    (hup : (c'.head b).uptodate = true)
    (hheld : c'.held = Function.update (m.state.cache dev).held b ((m.state.cache dev).held b + 1)) :
    Backed V r (q + ref (dev, b)) (m.setCache dev c').state := by
  refine h.setCache hsame ?_ ?_ ?_
  · rw [bufs_gain hheld, h.bufs, add_assoc]
  · intro b' hq
    rcases eq_or_ne b' b with rfl | hne
    · exact hup
    · refine hsame.uptodate b' (h.uptodate dev b' ?_)
      rw [Pi.add_apply, ref_apply, if_neg (fun heq => hne (congrArg Prod.snd heq))] at hq
      exact hq
  · intro d b' hd hq
    rw [Pi.add_apply, ref_apply, if_neg (fun heq => hd (congrArg Prod.fst heq))] at hq
    exact hq

omit h in
theorem bread (h : Backed V r q m.state) (dev b : Nat) :
    Runs (Path.bread dev b) m fun got s =>
      got = true ∧ Backed V r (q + ref (dev, b)) s ∧ s.inode = m.state.inode := by
  obtain ⟨c', hrun, hsame, hup, hheld⟩ := h.bread_eq rfl b
  unfold Runs Ends
  rw [hrun]
  exact ⟨rfl, h.gained hsame hup hheld, rfl⟩

omit h in
theorem brelse_eq {dev b : Nat} (h : Backed V r (q + ref (dev, b)) s) (hcache : m.state.cache dev = s.cache dev) :
    ∃ c', Path.brelse dev b m = .ok () { m.setCache dev c' with log := m.log ++ [(.release dev b, m.state)] } ∧
      Cache.Same (s.cache dev) c' ∧
      c'.held = Function.update (s.cache dev).held b ((s.cache dev).held b - 1) := by
  have hbufs := congrFun h.bufs (dev, b)
  have hheld : (s.cache dev).held b = V.start.bufs (dev, b) + q (dev, b) + 1 := by
    rw [Pi.add_apply, Pi.add_apply, ref_apply, if_pos rfl, ← add_assoc] at hbufs
    exact hbufs
  have hspec := Cache.brelse_spec hheld
  cases hrel : (s.cache dev).brelse b with
  | error e => exact (hspec.of_error e hrel).elim
  | ok c' =>
    obtain ⟨hsame, hheld'⟩ := hspec.of_ok _ hrel
    refine ⟨c', ?_, hsame, by rw [hheld', hheld, Nat.add_sub_cancel]⟩
    have hrun : Path.brelse dev b m = onCache dev (((m.state.cache dev).brelse b).map fun c => ((), c))
        { m with log := m.log ++ [(.release dev b, m.state)] } := rfl
    rw [hrun, hcache, hrel]
    rfl

omit h in
theorem lost {dev b : Nat} {c' : Cache} (h : Backed V r (q + ref (dev, b)) m.state)
    (hsame : Cache.Same (m.state.cache dev) c')
    (hheld : c'.held = Function.update (m.state.cache dev).held b ((m.state.cache dev).held b - 1)) :
    Backed V r q (m.setCache dev c').state := by
  have hle (k : Key) (hq : q k ≠ 0) : (q + ref (dev, b)) k ≠ 0 := by
    rw [Pi.add_apply]
    omega
  refine h.setCache hsame ?_ ?_ ?_
  · rw [bufs_loss hheld, h.bufs, ← add_assoc]
    funext k
    simp
  · exact fun b' hq => hsame.uptodate b' (h.uptodate dev b' (hle _ hq))
  · exact fun d b' _ hq => hle _ hq

omit h in
theorem brelse {dev b : Nat} (h : Backed V r (q + ref (dev, b)) m.state) :
    Runs (Path.brelse dev b) m fun _ s => Backed V r q s ∧ s.inode = m.state.inode := by
  obtain ⟨c', hrun, hsame, hheld⟩ := h.brelse_eq rfl
  unfold Runs Ends
  rw [hrun]
  exact ⟨h.lost hsame hheld, rfl⟩

omit h in
/-- The bytes of a buffer that is held. -/
theorem bData_eq (h : Backed V r q s) {dev b : Nat} (hq : q (dev, b) ≠ 0) :
    ((s.cache dev).head b).data = (s.cache dev).contents b := by
  unfold Cache.contents
  rw [if_pos (h.uptodate dev b hq)]

end Backed

end Linux011.Path
