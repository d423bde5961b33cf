import Linux011.Path.Requests
import Linux011.Path.Resolve

/-!
# Calls by name in a calm system

The calls return, with what they do to the files and to the process. The tables then stand for these files.
-/

namespace Linux011.Path

open Linux011.Fs Linux011.Lib

variable {V : View} {i rs ps : Nat} {r r' base keep : Nat → Nat} {q : Key → Nat} {s : State} {m : Machine} {d : Node}
  {D : DiskInode}

/-! ## A file gets another inode -/

/-- The inode in the slot gets the fields of `D`, and it gets dirty. -/
structure MInode.Becomes (n n' : MInode) (D : DiskInode) : Prop where
  node : n'.node = n.node
  count : n'.iCount = n.iCount
  pipe : n'.iPipe = n.iPipe
  mount : n'.iMount = n.iMount
  lock : n'.iLock = n.iLock
  dirt : n'.iDirt = true
  stored : n'.stored = D

def View.change (V : View) (d : Node) (D : DiskInode) (hD : D.Fits) : View :=
  { V with files := V.files.change d D hD }

namespace Stands

theorem change {g : MInode → MInode} (h : Stands V r q m.state) (hi : i < nrInode)
    (hd : (m.state.inode i).node = d) (hvalid : V.files.Valid d) (hD : D.Fits)
    (hg : (m.state.inode i).Becomes (g (m.state.inode i)) D) :
    Stands (V.change d D hD) r q (m.setInode i g).state := by
  obtain ⟨k, hk⟩ := super_of_first hvalid.known
  have hdev : (m.state.inode i).iDev = d.1 := congrArg Prod.fst hd
  have hnum : (m.state.inode i).iNum = d.2 := congrArg Prod.snd hd
  have hgdev : (g (m.state.inode i)).iDev = (m.state.inode i).iDev := congrArg Prod.fst hg.node
  have hgnum : (g (m.state.inode i)).iNum = (m.state.inode i).iNum := congrArg Prod.snd hg.node
  have hself : (m.setInode i g).state.inode i = g (m.state.inode i) := Function.update_self ..
  have hother (j : Nat) (hj : j ≠ i) : (m.setInode i g).state.inode j = m.state.inode j := Function.update_of_ne hj ..
  have hnodes (j : Nat) : ((m.setInode i g).state.inode j).node = (m.state.inode j).node := by
    rcases eq_or_ne j i with rfl | hne
    · rw [hself, hg.node]
    · rw [hother j hne]
  have hfile (n : Node) (hn : n ≠ d) : (V.change d D hD).files.file n = V.files.file n := Function.update_of_ne hn ..
  have hfiled : (V.change d D hD).files.file d = D := Function.update_self ..
  refine ⟨{ h.toBacked with frame := ?_, slot := ?_, unique := ?_, disk := ?_, unmounted := ?_ }, fun j hj => ?_⟩
  · have hframe := congrArg
      (fun s : State => { s with inode := Function.update m.state.inode i (g (m.state.inode i)) }) h.frame
    exact hframe
  · intro j hj
    have hslot := h.slot j hj
    rcases eq_or_ne j i with rfl | hne
    · rw [hself]
      refine ⟨hg.count.trans hslot.count, fun hb => hg.node.trans (hslot.pinned hb), fun hp => ?_, ?_, fun hne hc => ?_,
        fun _ => ⟨k, ?_, ?_⟩, fun _ _ => ?_, fun hne => ?_, fun hm => hslot.mount (hg.mount ▸ hm)⟩
      · exact hgdev.trans (hslot.pipe (hg.pipe ▸ hp))
      · rw [hgnum]
        exact hslot.num
      · exact ⟨k, by rw [hgdev, hdev]; exact hk⟩
      · rw [hgdev, hdev]
        exact hk
      · rw [hgnum, hnum]
        exact V.inodes d.1 k hk d.2 hvalid.pos hvalid.le
      · rw [hg.stored, hg.node, hd]
        exact hfiled.symm
      · rw [hgdev] at hne
        rw [hg.node, hg.mount]
        exact hslot.mounted hne
    · rw [hother j hne]
      refine { hslot with copy := fun k' hk' => ?_ }
      rw [hslot.copy k' hk', hfile]
      intro heq
      refine hne (h.unique j hj i hi ?_ (heq.trans hd.symm))
      intro hzero
      rw [hzero] at hk'
      cases hk'
  · intro a ha b hb hne heq
    rw [hnodes, hnodes] at heq
    have hdevs : ((m.setInode i g).state.inode a).iDev = (m.state.inode a).iDev := congrArg Prod.fst (hnodes a)
    exact h.unique a ha b hb (hdevs ▸ hne) heq
  · intro n k' hk' hn hclean
    have hne : n ≠ d := by
      rintro rfl
      have hnot := hclean i hi ((hnodes i).trans hd)
      rw [hself, hg.dirt] at hnot
      cases hnot
    rw [hfile n hne]
    refine h.disk n k' hk' hn fun j hj hjn => ?_
    have hji : j ≠ i := by
      rintro rfl
      exact hne (hjn.symm.trans hd)
    have hj' := hclean j hj ((hnodes j).trans hjn)
    rwa [hother j hji] at hj'
  · intro n hn hnone
    exact h.unmounted n hn fun j hj hjn => hnone j hj ((hnodes j).trans hjn)
  · rcases eq_or_ne j i with rfl | hne
    · rw [hself, hg.lock]
      exact h.unlocked j hj
    · rw [hother j hne]
      exact h.unlocked j hj

/-! ## The references are counted anew -/

/-- Another process, at another time, goes by the state that a call has come to. -/
def view (h : Stands V r q s) (T : Task) (now : Nat) (base : Nat → Nat) (hpoint : ∀ i, V.point i → base i ≠ 0) :
    View where
  files := V.files
  start := { s with current := T, now := now }
  base := base
  node i := (s.inode i).node
  point := V.point
  first dev := by
    have hsuper : s.getSuper dev = V.start.getSuper dev := h.getSuper dev
    rw [V.first dev, ← hsuper, ← h.superBlock]
    rfl
  inodes dev k hk := by
    have hk' : s.getSuper dev = some k := hk
    rw [h.getSuper] at hk'
    show ∀ nr, 0 < nr → nr ≤ V.files.inodes dev →
      inodeBlock (s.superBlock k) nr < (s.superBlock k).sFirstdatazone
    rw [h.superBlock]
    exact V.inodes dev k hk'
  cover dev k hk := by
    have hk' : s.getSuper dev = some k := hk
    rw [h.getSuper] at hk'
    show _ = (s.superBlock k).sImount.map _
    rw [V.cover dev k hk', h.superBlock]
    cases hm : (V.start.superBlock k).sImount with
    | none => rfl
    | some j =>
      obtain ⟨hj, hp⟩ := V.imount dev k j hk' hm
      exact congrArg some ((h.slot j hj).pinned (V.pinned j hp)).symm
  imount dev k j hk hm := by
    have hk' : s.getSuper dev = some k := hk
    have hm' : (s.superBlock k).sImount = some j := hm
    rw [h.getSuper] at hk'
    rw [h.superBlock] at hm'
    exact V.imount dev k j hk' hm'
  pinned := hpoint
  onto j k hk := by
    have hk' : s.mountedOn j = some k := hk
    rw [h.mountedOn] at hk'
    obtain ⟨k', hk'⟩ := V.onto j k hk'
    refine ⟨k', ?_⟩
    show s.getSuper (s.superBlock k).sDev = some k'
    rw [h.getSuper, h.superBlock]
    exact hk'

variable (h : Stands V r q s) {hpoint : ∀ i, V.point i → base i ≠ 0}

include h

theorem again (T : Task) (now : Nat) (hrefs : base + r' = V.base + r) :
    Stands (h.view T now base hpoint) r' 0 { s with current := T, now := now } := by
  have hsuper (dev : Nat) : (h.view T now base hpoint).start.getSuper dev = V.start.getSuper dev := h.getSuper dev
  have hblock (k : Nat) : (h.view T now base hpoint).start.superBlock k = V.start.superBlock k :=
    congrFun h.superBlock k
  have hon (j : Nat) : (h.view T now base hpoint).start.mountedOn j = V.start.mountedOn j := h.mountedOn j
  refine ⟨{ h.toBacked with frame := rfl, bufs := rfl, uptodate := ?_, slot := ?_, disk := ?_, data := ?_ }, h.unlocked⟩
  · exact fun _ _ hq => absurd rfl hq
  · intro j hj
    have hslot := h.slot j hj
    refine ⟨?_, fun _ => rfl, hslot.pipe, hslot.num, fun hne hc => ?_, fun hdirt => ?_, fun k hk => ?_, fun hne => ?_,
      hslot.mount⟩
    · have hcount := congrFun hrefs j
      exact hslot.count.trans hcount.symm
    · rw [hsuper]
      exact hslot.known hne hc
    · obtain ⟨k, hk, hlt⟩ := hslot.dirty hdirt
      refine ⟨k, by rw [hsuper]; exact hk, ?_⟩
      rw [hblock]
      exact hlt
    · rw [hsuper] at hk
      exact hslot.copy k hk
    · rw [hon]
      have hmounted := hslot.mounted hne
      simp only [hblock]
      exact hmounted
  · intro n k hk hn hclean
    rw [hsuper] at hk
    exact h.disk n k hk hn hclean
  · intro dev k b hk hb
    rw [hsuper] at hk
    rw [hblock] at hb
    exact h.data dev k b hk hb

end Stands

/-! ## Between two calls -/

def Task.ids (T : Task) : Nat × Nat × Nat × Nat := (T.uid, T.euid, T.gid, T.egid)

/-- A process has its root in the slot `rs` and its directory in `ps`, and no call is on. The other references are
counted by `keep`. -/
structure Home (V : View) (keep : Nat → Nat) (rs ps : Nat) : Prop where
  root : V.start.current.root = some rs
  pwd : V.start.current.pwd = some ps
  root_lt : rs < nrInode
  pwd_lt : ps < nrInode
  root_linked : V.files.Linked (V.node rs)
  pwd_linked : V.files.Linked (V.node ps)
  stands : Stands V 0 0 V.start
  refs : V.base = keep + ref rs + ref ps
  points : ∀ i, V.point i → keep i ≠ 0
  whole : V.files.Whole

/-- What `stat` tells of a file. -/
structure Stat.Tells (st : Stat) (n : Node) (D : DiskInode) : Prop where
  dev : st.stDev = n.1
  ino : st.stIno = n.2
  mode : st.stMode = D.iMode
  nlink : st.stNlink = D.iNlinks.toNat
  uid : st.stUid = D.iUid
  gid : st.stGid = D.iGid
  rdev : st.stRdev = D.iZone 0
  size : st.stSize = D.iSize
  mtime : st.stMtime = D.iTime

/-- The result of a call, and what it tells, are those of the files. -/
def Matches (a : Int × Option Stat) (b : Int × Option (Node × DiskInode)) : Prop :=
  a.1 = b.1 ∧ Option.Rel (fun st f => st.Tells f.1 f.2) a.2 b.2

/-- A call has replied, and no call is on. -/
def Served (V : View) (keep : Nat → Nat) (R : Reply) (a : Int × Option Stat) (s : State) : Prop :=
  Matches a (R.code, R.told) ∧ ∃ V' rs ps, V'.start = s ∧ V'.files = R.files ∧ V'.caller rs ps = R.caller ∧
    V'.point = V.point ∧ Home V' keep rs ps ∧ ∀ j < nrInode, keep j ≠ 0 → V'.node j = V.node j

theorem Stands.home {rs' ps' : Nat} {T : Task} (h : Stands V r 0 s) (hr : keep + ref rs' + ref ps' = V.base + r)
    (hroot : T.root = some rs') (hpwd : T.pwd = some ps') (hrs : rs' < nrInode) (hps : ps' < nrInode)
    (hrnode : V.files.Linked (s.inode rs').node) (hpnode : V.files.Linked (s.inode ps').node)
    (hpoints : ∀ i, V.point i → keep i ≠ 0) (hw : V.files.Whole) :
    ∃ V', V'.start = { s with current := T } ∧ V'.files = V.files ∧ V'.point = V.point ∧
      (∀ j, V'.node j = (s.inode j).node) ∧ Home V' keep rs' ps' := by
  have hpoint (i : Nat) (hi : V.point i) : (keep + ref rs' + ref ps') i ≠ 0 := by
    have hk := hpoints i hi
    simp only [Pi.add_apply]
    omega
  exact ⟨h.view T s.now _ hpoint, rfl, rfl, rfl, fun _ => rfl, hroot, hpwd, hrs, hps, hrnode, hpnode,
    h.again T s.now (by rw [add_zero, hr]), rfl, hpoints, hw⟩

theorem runs_either {α : Type} {p p' : Prop} [Decidable p] [Decidable p'] {a b : α} {Q : α → State → Prop}
    (ha : p ∨ p' → Q a m.state) (hb : ¬ (p ∨ p') → Q b m.state) :
    Runs (if p then return a else if p' then return a else return b) m Q := by
  by_cases hp : p
  · rw [if_pos hp]
    exact ha (.inl hp)
  · rw [if_neg hp]
    by_cases hp' : p'
    · rw [if_pos hp']
      exact ha (.inr hp')
    · rw [if_neg hp']
      exact hb (not_or.mpr ⟨hp, hp'⟩)

namespace Home

variable (h : Home V keep rs ps)

include h

theorem root_base : V.base rs ≠ 0 := by
  rw [h.refs]
  simp

theorem pwd_base : V.base ps ≠ 0 := by
  rw [h.refs]
  simp

theorem keep_base {j : Nat} (hj : keep j ≠ 0) : V.base j ≠ 0 := by
  rw [h.refs]
  simp only [Pi.add_apply]
  omega

theorem placed : Placed V rs ps where
  root := h.root
  lt := h.root_lt
  base := h.root_base
  pwd := h.pwd
  pwd_lt := h.pwd_lt
  pwd_base := h.pwd_base
  root_valid := h.root_linked.toValid
  pwd_valid := h.pwd_linked.toValid

omit h in
/-- The call is done, and the root and the directory of the process are in the slots `rs'` and `ps'`. -/
theorem move {V₁ : View} {rs' ps' : Nat} {T : Task} {code : Int} {told : Option (Node × DiskInode)}
    {a : Int × Option Stat} (h : Home V keep rs ps) (hs : Stands V₁ 0 0 s) (hrefs : V₁.base = keep + ref rs' + ref ps')
    (hpoint : V₁.point = V.point) (hwhole : V₁.files.Whole) (hkeep : ∀ j < nrInode, keep j ≠ 0 → V₁.node j = V.node j)
    (hroot : T.root = some rs') (hpwd : T.pwd = some ps') (hids : T.ids = V.start.current.ids) (hrs : rs' < nrInode)
    (hps : ps' < nrInode) (hrnode : V₁.files.Linked (V₁.node rs')) (hpnode : V₁.files.Linked (V₁.node ps'))
    (ha : Matches a (code, told)) :
    Served V keep ⟨code, told, V₁.files, { V.caller rs ps with root := V₁.node rs', pwd := V₁.node ps' }⟩ a
      { s with current := T } := by
  have hbase (j : Nat) (hj : j < nrInode) (hb : (keep + ref rs' + ref ps') j ≠ 0) : (s.inode j).node = V₁.node j :=
    (hs.slot j hj).pinned (hrefs ▸ hb)
  have hrpin := hbase rs' hrs (by simp)
  have hppin := hbase ps' hps (by simp)
  have hcount : keep + ref rs' + ref ps' = V₁.base + 0 := by rw [hrefs, add_zero]
  obtain ⟨V', hstart, hfiles, hpoint', hnode, hhome⟩ := hs.home hcount hroot hpwd hrs hps (hrpin ▸ hrnode)
    (hppin ▸ hpnode) (hpoint ▸ h.points) hwhole
  refine ⟨ha, V', rs', ps', hstart, hfiles, ?_, hpoint'.trans hpoint, hhome, fun j hj hk => ?_⟩
  · simp only [Task.ids, Prod.mk.injEq] at hids
    obtain ⟨huid, heuid, hgid, hegid⟩ := hids
    simp only [View.caller, hnode, hstart, hrpin, hppin, huid, heuid, hgid, hegid]
  · rw [hnode, hbase j hj, hkeep j hj hk]
    simp only [Pi.add_apply]
    omega

/-- The process stays where it is. -/
theorem stay {V₁ : View} {code : Int} {told : Option (Node × DiskInode)} {a : Int × Option Stat}
    (hs : Stands V₁ 0 0 s) (hstart : V₁.start = V.start) (hbase : V₁.base = V.base) (hnode : V₁.node = V.node)
    (hpoint : V₁.point = V.point) (halike : Files.Alike V.files V₁.files) (ha : Matches a (code, told)) :
    Served V keep ⟨code, told, V₁.files, V.caller rs ps⟩ a s := by
  have hcurrent : s.current = V.start.current := by rw [hs.current, hstart]
  have hserved := h.move (T := s.current) hs (hbase.trans h.refs) hpoint (halike.whole h.whole)
    (fun _ _ _ => by rw [hnode]) (hcurrent ▸ h.root) (hcurrent ▸ h.pwd) (by rw [hcurrent]) h.root_lt h.pwd_lt
    (hnode ▸ halike.linked h.root_linked) (hnode ▸ halike.linked h.pwd_linked) ha
  rw [hnode] at hserved
  exact hserved

/-- The file that has been got is changed. -/
theorem alter {g : MInode → MInode} {n : Node} (hlinked : V.files.Linked n) (hi : i < nrInode)
    (h₁ : Stands V (0 + ref i) 0 m.state) (hd : (m.state.inode i).node = n) (hD : D.Fits)
    (hg : (m.state.inode i).Becomes (g (m.state.inode i)) D) (halike : Files.Alike V.files (V.files.change n D hD)) :
    Runs (do
      setInode i g
      Path.iput i
      return 0) m fun r => Served V keep ⟨0, none, V.files.change n D hD, V.caller rs ps⟩ (r, none) := by
  have h₂ := h₁.change hi hd hlinked.toValid hD hg
  have hd₂ : ((m.setInode i g).state.inode i).node = n := by
    show (Function.update m.state.inode i _ i).node = n
    rw [Function.update_self, hg.node, hd]
  have hlinked₂ := halike.linked hlinked
  refine runs_setInode ?_
  refine (h₂.put hi hd₂ hlinked₂.known (.inl hlinked₂.links)).bind fun _ m₃ hret => ?_
  obtain ⟨h₃, _⟩ := hret
  exact h.stay h₃ rfl rfl rfl rfl halike ⟨rfl, .none⟩

/-- The file that has been got is let go. -/
theorem refuse {n : Node} (hlinked : V.files.Linked n) (hi : i < nrInode) (h₁ : Stands V (0 + ref i) 0 m.state)
    (hd : (m.state.inode i).node = n) (code : Int) :
    Runs (do
      Path.iput i
      return code) m fun r => Served V keep ⟨code, none, V.files, V.caller rs ps⟩ (r, none) := by
  refine (h₁.put hi hd hlinked.known (.inl hlinked.links)).bind fun _ m₂ hret => ?_
  obtain ⟨h₂, _⟩ := hret
  exact h.stay h₂ rfl rfl rfl rfl .refl ⟨rfl, .none⟩

/-- The slot `old` of the process is let go, and its root and its directory are in `rs'` and `ps'` then. -/
theorem swap {old rs' ps' : Nat} {g : Task → Task} (h₁ : Stands V (0 + ref i) 0 m.state)
    (hrefs : keep + ref rs' + ref ps' + (0 + ref old) = V.base + (0 + ref i)) (hold : old < nrInode)
    (hbase : V.base old ≠ 0) (hlinked : V.files.Linked (V.node old)) (hrs : rs' < nrInode) (hps : ps' < nrInode)
    (hrnode : V.files.Linked (m.state.inode rs').node) (hpnode : V.files.Linked (m.state.inode ps').node)
    (hroot : (g V.start.current).root = some rs') (hpwd : (g V.start.current).pwd = some ps')
    (hids : (g V.start.current).ids = V.start.current.ids) :
    Runs (do
      Path.iput old
      setCurrent g
      return 0) m fun r => Served V keep ⟨0, none, V.files,
        { V.caller rs ps with root := (m.state.inode rs').node, pwd := (m.state.inode ps').node }⟩ (r, none) := by
  have hpoint (j : Nat) (hj : V.point j) : (keep + ref rs' + ref ps') j ≠ 0 := by
    have hk := h.points j hj
    simp only [Pi.add_apply]
    omega
  have h₂ : Stands (h₁.view m.state.current m.state.now _ hpoint) (0 + ref old) 0 m.state :=
    h₁.again m.state.current m.state.now hrefs
  have hd : (m.state.inode old).node = V.node old := (h₁.slot old hold).pinned hbase
  refine (h₂.put hold hd hlinked.known (.inl hlinked.links)).bind fun _ m₃ hret => ?_
  obtain ⟨h₃, _⟩ := hret
  have hcurrent : m₃.state.current = V.start.current := h₃.current.trans h₁.current
  refine h.move h₃ rfl rfl h.whole (fun j hj hk => ?_) (hcurrent ▸ hroot) (hcurrent ▸ hpwd) (hcurrent ▸ hids) hrs hps
    hrnode hpnode ⟨rfl, .none⟩
  exact (h₁.slot j hj).pinned (h.keep_base hk)

section

variable {fuel : Nat} {now : UInt32} (hm : m.state = V.start) (hfree : ∃ e < nrInode, V.base e = 0)
  (hmounts : ∀ n, ∃ n', V.files.cross fuel n = some n')

include hm hfree hmounts

/-- The file is got, or there is none. -/
theorem found {β : Type} {k : Option Nat → Call β} {R : β → State → Prop} {path : Name}
    (hnone : ∀ m', V.files.resolve fuel (V.caller rs ps) path = none → Stands V 0 0 m'.state → Runs (k none) m' R)
    (hsome : ∀ n i m', V.files.resolve fuel (V.caller rs ps) path = some n → V.files.Linked n → i < nrInode →
      Stands V (0 + ref i) 0 m'.state → (m'.state.inode i).node = n → Runs (k (some i)) m' R) :
    Runs (Path.namei fuel path >>= k) m R := by
  have hstands : Stands V 0 0 m.state := hm ▸ h.stands
  refine (hstands.namei h.whole h.placed hfree hmounts path).bind fun o m' ho => ?_
  unfold Stands.Result at ho
  split at ho
  · next hn =>
    obtain ⟨rfl, h'⟩ := ho
    exact hnone m' hn h'
  · next n hn =>
    obtain ⟨i, hi, rfl, h', hd⟩ := ho
    have hlinked := Files.resolve_linked h.whole h.root_linked.toValid h.pwd_linked.toValid hn
    exact hsome n i m' hn hlinked hi h' hd

theorem access (filename : Name) (mode : Nat) :
    Runs (Path.sysAccess fuel filename mode) m fun r =>
      Served V keep ((Request.access filename mode).reply fuel now V.files (V.caller rs ps)) (r, none) := by
  unfold Path.sysAccess
  refine h.found hm hfree hmounts (fun m₁ hn h₁ => ?_) fun n i m₁ hn hlinked hi h₁ hd => ?_
  · rw [Request.reply_none hn]
    exact h.stay h₁ rfl rfl rfl rfl .refl ⟨rfl, .none⟩
  · rw [Request.reply_some hn]
    refine runs_look ?_
    refine (h₁.put hi hd hlinked.known (.inl hlinked.links)).bind fun _ m₂ hret => runs_look ?_
    obtain ⟨h₂, hidle⟩ := hret
    have hstored := h₁.stored_eq hi hd hlinked.known
    have hmode : (m₁.state.inode i).iMode = (V.files.file n).iMode := congrArg DiskInode.iMode hstored
    have huid : (m₂.state.inode i).iUid = (V.files.file n).iUid :=
      (congrArg (fun n : MInode => n.iUid) (hidle i)).trans (congrArg DiskInode.iUid hstored)
    have hgid : (m₂.state.inode i).iGid = (V.files.file n).iGid :=
      (congrArg (fun n : MInode => n.iGid) (hidle i)).trans (congrArg DiskInode.iGid hstored)
    have hcurrent : m₂.state.current = V.start.current := h₂.current
    have hcode (code : Int) (hcode : (if V.files.access (V.caller rs ps) n (mode &&& 0o7) then 0 else -eAcces) = code) :
        Served V keep ((Request.access filename mode).act now V.files (V.caller rs ps) n) (code, none) m₂.state :=
      h.stay h₂ rfl rfl rfl rfl .refl ⟨hcode.symm, .none⟩
    have haccess : V.files.access (V.caller rs ps) n (mode &&& 0o7) = true ↔
        (if V.start.current.uid = (V.files.file n).iUid ∨ V.start.current.gid = (V.files.file n).iGid then
          ((V.files.file n).iMode &&& 0o777) / 2 ^ 6 else (V.files.file n).iMode &&& 0o777) &&& 0o7 &&&
            (mode &&& 0o7) = mode &&& 0o7 ∨
        V.start.current.uid = 0 ∧ (mode &&& 0o7 &&& 1 = 0 ∨ (V.files.file n).iMode &&& 0o777 &&& 0o111 ≠ 0) := by
      simp only [Files.access, Bool.or_eq_true, decide_eq_true_eq]
      rfl
    simp only [id, hcurrent, hmode, huid, hgid]
    exact runs_either (fun hacc => hcode 0 (if_pos (haccess.mpr hacc)))
      fun hacc => hcode (-eAcces) (if_neg fun htrue => hacc (haccess.mp htrue))

theorem stat (filename : Name) :
    Runs (Path.sysStat fuel filename) m
      (Served V keep ((Request.stat filename).reply fuel now V.files (V.caller rs ps))) := by
  unfold Path.sysStat
  refine h.found hm hfree hmounts (fun m₁ hn h₁ => ?_) fun n i m₁ hn hlinked hi h₁ hd => ?_
  · rw [Request.reply_none hn]
    exact h.stay h₁ rfl rfl rfl rfl .refl ⟨rfl, .none⟩
  · rw [Request.reply_some hn]
    refine runs_look ?_
    have hstored := h₁.stored_eq hi hd hlinked.known
    refine (h₁.put hi hd hlinked.known (.inl hlinked.links)).bind fun _ m₂ hret => ?_
    obtain ⟨h₂, _⟩ := hret
    refine h.stay h₂ rfl rfl rfl rfl .refl ⟨rfl, .some ?_⟩
    show (cpStat (m₁.state.inode i)).Tells n (V.files.file n)
    rw [← hstored, ← hd]
    exact ⟨rfl, rfl, rfl, rfl, rfl, rfl, rfl, rfl, rfl⟩

theorem chmod (filename : Name) (mode : Nat) :
    Runs (Path.sysChmod fuel filename mode) m fun r =>
      Served V keep ((Request.chmod filename mode).reply fuel now V.files (V.caller rs ps)) (r, none) := by
  unfold Path.sysChmod
  refine h.found hm hfree hmounts (fun m₁ hn h₁ => ?_) fun n i m₁ hn hlinked hi h₁ hd => ?_
  · rw [Request.reply_none hn]
    exact h.stay h₁ rfl rfl rfl rfl .refl ⟨rfl, .none⟩
  · rw [Request.reply_some hn]
    refine runs_state ?_
    have hstored := h₁.stored_eq hi hd hlinked.known
    have huid : (m₁.state.inode i).iUid = (V.files.file n).iUid := congrArg DiskInode.iUid hstored
    simp only [State.suser, h₁.current, huid, Request.act]
    by_cases hmay : (V.caller rs ps).euid = (V.files.file n).iUid ∨ (V.caller rs ps).euid = 0
    · rw [if_pos hmay, if_neg (by simpa [View.caller, imp_iff_not_or] using hmay)]
      refine h.alter hlinked hi h₁ hd _ ⟨rfl, rfl, rfl, rfl, rfl, rfl, ?_⟩ ?_
      · rw [← hstored]
        rfl
      · exact .change ((V.files.fits n).chmod mode) rfl (DiskInode.isDir_chmod mode) rfl rfl
    · rw [if_neg hmay, if_pos (by simpa [View.caller] using hmay)]
      exact h.refuse hlinked hi h₁ hd _

theorem chown (filename : Name) (uid gid : Nat) :
    Runs (Path.sysChown fuel filename uid gid) m fun r =>
      Served V keep ((Request.chown filename uid gid).reply fuel now V.files (V.caller rs ps)) (r, none) := by
  unfold Path.sysChown
  refine h.found hm hfree hmounts (fun m₁ hn h₁ => ?_) fun n i m₁ hn hlinked hi h₁ hd => ?_
  · rw [Request.reply_none hn]
    exact h.stay h₁ rfl rfl rfl rfl .refl ⟨rfl, .none⟩
  · rw [Request.reply_some hn]
    refine runs_look ?_
    have hstored := h₁.stored_eq hi hd hlinked.known
    simp only [State.suser, h₁.current, Request.act]
    by_cases hroot : (V.caller rs ps).euid = 0
    · rw [if_pos hroot, if_neg (by simpa [View.caller] using hroot)]
      refine h.alter hlinked hi h₁ hd _ ⟨rfl, rfl, rfl, rfl, rfl, rfl, ?_⟩ ?_
      · rw [← hstored]
        rfl
      · exact .change ((V.files.fits n).chown uid gid) rfl rfl rfl rfl
    · rw [if_neg hroot, if_pos (by simpa [View.caller] using hroot)]
      exact h.refuse hlinked hi h₁ hd _

theorem utime (filename : Name) (times : Option (UInt32 × UInt32)) (hnow : V.start.now = now.toNat) :
    Runs (Path.sysUtime fuel filename (times.map fun t => (t.1.toNat, t.2.toNat))) m fun r =>
      Served V keep ((Request.utime filename times).reply fuel now V.files (V.caller rs ps)) (r, none) := by
  unfold Path.sysUtime
  refine h.found hm hfree hmounts (fun m₁ hn h₁ => ?_) fun n i m₁ hn hlinked hi h₁ hd => ?_
  · rw [Request.reply_none hn]
    exact h.stay h₁ rfl rfl rfl rfl .refl ⟨rfl, .none⟩
  · rw [Request.reply_some hn]
    refine runs_look ?_
    have hstored := h₁.stored_eq hi hd hlinked.known
    have hnow₁ : m₁.state.now = now.toNat := by
      have hframe := congrArg State.now h₁.frame
      exact hframe.trans hnow
    refine h.alter hlinked hi h₁ hd _ ⟨rfl, rfl, rfl, rfl, rfl, rfl, ?_⟩ ?_
    · rw [← hstored, hnow₁]
      cases times <;> rfl
    · exact .change ((V.files.fits n).utime _) rfl rfl rfl rfl

theorem chdir (filename : Name) :
    Runs (Path.sysChdir fuel filename) m fun r =>
      Served V keep ((Request.chdir filename).reply fuel now V.files (V.caller rs ps)) (r, none) := by
  unfold Path.sysChdir
  refine h.found hm hfree hmounts (fun m₁ hn h₁ => ?_) fun n i m₁ hn hlinked hi h₁ hd => ?_
  · rw [Request.reply_none hn]
    exact h.stay h₁ rfl rfl rfl rfl .refl ⟨rfl, .none⟩
  · rw [Request.reply_some hn]
    refine runs_look ?_
    have hmode : (m₁.state.inode i).iMode = (V.files.file n).iMode := h₁.isDir_eq hi hd hlinked.known
    simp only [hmode, Request.act]
    cases hdir : isDir (V.files.file n).iMode with
    | false => exact h.refuse hlinked hi h₁ hd _
    | true =>
      refine runs_look ?_
      rw [h₁.current, h.pwd]
      have hrpin := (h₁.slot rs h.root_lt).pinned h.root_base
      have hrefs : keep + ref rs + ref i + (0 + ref ps) = V.base + (0 + ref i) := by
        rw [h.refs]
        ac_rfl
      have hswap := h.swap (g := fun T => { T with pwd := some i }) h₁ hrefs h.pwd_lt h.pwd_base h.pwd_linked h.root_lt
        hi (hrpin ▸ h.root_linked) (hd ▸ hlinked) h.root rfl rfl
      rw [hrpin, hd] at hswap
      exact hswap

theorem chroot (filename : Name) :
    Runs (Path.sysChroot fuel filename) m fun r =>
      Served V keep ((Request.chroot filename).reply fuel now V.files (V.caller rs ps)) (r, none) := by
  unfold Path.sysChroot
  refine h.found hm hfree hmounts (fun m₁ hn h₁ => ?_) fun n i m₁ hn hlinked hi h₁ hd => ?_
  · rw [Request.reply_none hn]
    exact h.stay h₁ rfl rfl rfl rfl .refl ⟨rfl, .none⟩
  · rw [Request.reply_some hn]
    refine runs_look ?_
    have hmode : (m₁.state.inode i).iMode = (V.files.file n).iMode := h₁.isDir_eq hi hd hlinked.known
    simp only [hmode, Request.act]
    cases hdir : isDir (V.files.file n).iMode with
    | false => exact h.refuse hlinked hi h₁ hd _
    | true =>
      refine runs_look ?_
      rw [h₁.current, h.root]
      have hppin := (h₁.slot ps h.pwd_lt).pinned h.pwd_base
      have hrefs : keep + ref i + ref ps + (0 + ref rs) = V.base + (0 + ref i) := by
        rw [h.refs]
        ac_rfl
      have hswap := h.swap (g := fun T => { T with root := some i }) h₁ hrefs h.root_lt h.root_base h.root_linked hi
        h.pwd_lt (hd ▸ hlinked) (hppin ▸ h.pwd_linked) rfl h.pwd rfl
      rw [hppin, hd] at hswap
      exact hswap

/-- Every call returns what the files say, and the tables stand for the files that it leaves. -/
theorem perform (hnow : V.start.now = now.toNat) (q : Request) :
    Runs (q.perform fuel) m (Served V keep (q.reply fuel now V.files (V.caller rs ps))) := by
  cases q with
  | access filename mode => exact (h.access hm hfree hmounts filename mode).bind fun _ _ => id
  | stat filename => exact h.stat hm hfree hmounts filename
  | chdir filename => exact (h.chdir hm hfree hmounts filename).bind fun _ _ => id
  | chroot filename => exact (h.chroot hm hfree hmounts filename).bind fun _ _ => id
  | chmod filename mode => exact (h.chmod hm hfree hmounts filename mode).bind fun _ _ => id
  | chown filename uid gid => exact (h.chown hm hfree hmounts filename uid gid).bind fun _ _ => id
  | utime filename times => exact (h.utime hm hfree hmounts filename times hnow).bind fun _ _ => id

end

end Home

end Linux011.Path
