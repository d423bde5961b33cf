import Mathlib.Algebra.BigOperators.Pi
import Mathlib.Tactic.IntervalCases
import Linux011.Path.Served

/-!
# Processes that make calls by name

Several processes make calls, in any order. The kernel answers as the functions of the files do, and no reference
to an inode is lost or left behind, as long as there are enough slots in the inode table.
-/

namespace Linux011.Path

open Linux011.Fs Linux011.Lib

/-! ## The system -/

def Event.task (e : Event) (T : Task) : Task := { T with uid := e.uid, euid := e.euid, gid := e.gid, egid := e.egid }

/-- The tables, and the processes by their numbers. -/
structure System where
  state : State
  task : Nat → Task

namespace System

variable (fuel : Nat)

/-- The process becomes `current` and makes its call. -/
def serve (S : System) (e : Event) : Except Stop ((Int × Option Stat) × System) :=
  match e.request.perform fuel ⟨{ S.state with current := e.task (S.task e.pid), now := e.now.toNat }, []⟩ with
  | .ok a m => .ok (a, ⟨m.state, Function.update S.task e.pid m.state.current⟩)
  | .error stop _ => .error stop

def run : List Event → System → Except Stop (List (Int × Option Stat) × System)
  | [], S => .ok ([], S)
  | e :: es, S =>
    match S.serve fuel e with
    | .error stop => .error stop
    | .ok (a, S) =>
      match run es S with
      | .error stop => .error stop
      | .ok (as, S) => .ok (a :: as, S)

end System

/-! ## What the system stands for -/

/-- A reference, if there is one. -/
def spot : Option Nat → Nat → Nat
  | none => 0
  | some i => ref i

/-- The references of a process. -/
def Task.spots (T : Task) : Nat → Nat := spot T.root + spot T.pwd

/-- The root and the directory of the process are those of `c`. -/
structure Dwells (V : View) (T : Task) (c : Caller) (rs ps : Nat) : Prop where
  root : T.root = some rs
  pwd : T.pwd = some ps
  root_lt : rs < nrInode
  pwd_lt : ps < nrInode
  root_node : V.node rs = c.root
  pwd_node : V.node ps = c.pwd
  root_linked : V.files.Linked c.root
  pwd_linked : V.files.Linked c.pwd

/-- No call is on. The processes `pids` have the references to the inodes that are not among `others`. -/
structure Between (V : View) (pids : Finset Nat) (others : Nat → Nat) (W : World) (S : System) : Prop where
  files : V.files = W.files
  start : V.start = S.state
  refs : V.base = others + ∑ p ∈ pids, (S.task p).spots
  points : ∀ i, V.point i → others i ≠ 0
  whole : W.files.Whole
  stands : Stands V 0 0 S.state
  dwells : ∀ p ∈ pids, ∃ rs ps, Dwells V (S.task p) (W.caller p) rs ps

/-- The system stands for the files and the processes of `W`. -/
def Shows (pids : Finset Nat) (others : Nat → Nat) (W : World) (S : System) : Prop :=
  ∃ V, Between V pids others W S

variable {V : View} {pids : Finset Nat} {others : Nat → Nat} {W : World} {S : System} {fuel : Nat} {e : Event}
  {rs ps : Nat} {T : Task} {c : Caller}

theorem Dwells.spots_eq (h : Dwells V T c rs ps) : T.spots = ref rs + ref ps := by
  unfold Task.spots
  rw [h.root, h.pwd]
  rfl

theorem spot_ne_zero {o : Option Nat} {i : Nat} (h : spot o i ≠ 0) : o = some i := by
  cases o with
  | none => exact absurd rfl h
  | some j =>
    by_contra hne
    refine h ?_
    show ref j i = 0
    rw [ref_apply, if_neg (fun heq => hne (congrArg some heq.symm))]

namespace Between

/-- A process has at most two slots. -/
theorem free (h : Between V pids others W S)
    (hroom : ((Finset.range nrInode).filter fun i => others i ≠ 0).card + 2 * pids.card < nrInode) :
    ∃ e < nrInode, V.base e = 0 := by
  by_contra hnone
  push Not at hnone
  have hcover : Finset.range nrInode ⊆ ((Finset.range nrInode).filter fun i => others i ≠ 0) ∪
      pids.biUnion fun p => (S.task p).root.toFinset ∪ (S.task p).pwd.toFinset := by
    intro j hj
    have hbase := hnone j (Finset.mem_range.mp hj)
    rw [h.refs, Pi.add_apply, Finset.sum_apply] at hbase
    rw [Finset.mem_union, Finset.mem_filter, Finset.mem_biUnion]
    by_cases hothers : others j = 0
    · rw [hothers, zero_add] at hbase
      obtain ⟨p, hp, hspots⟩ := Finset.exists_ne_zero_of_sum_ne_zero hbase
      refine .inr ⟨p, hp, ?_⟩
      rw [Finset.mem_union, Option.mem_toFinset, Option.mem_toFinset]
      by_cases hroot : spot (S.task p).root j = 0
      · refine .inr (spot_ne_zero fun hpwd => hspots ?_)
        rw [Task.spots, Pi.add_apply, hroot, hpwd, add_zero]
      · exact .inl (spot_ne_zero hroot)
    · exact .inl ⟨hj, hothers⟩
  have htwo (p : Nat) (_ : p ∈ pids) : ((S.task p).root.toFinset ∪ (S.task p).pwd.toFinset).card ≤ 2 := by
    have hone (o : Option Nat) : o.toFinset.card ≤ 1 := by cases o <;> simp
    have hroot := hone (S.task p).root
    have hpwd := hone (S.task p).pwd
    have hunion := Finset.card_union_le (S.task p).root.toFinset (S.task p).pwd.toFinset
    omega
  have hcard := (Finset.card_le_card hcover).trans (Finset.card_union_le ..)
  have hpids := Finset.card_biUnion_le_card_mul pids _ 2 htwo
  rw [Finset.card_range] at hcard
  omega

/-- The slots of the other processes are kept. -/
theorem home (h : Between V pids others W S) (hp : e.pid ∈ pids) : ∃ V₁ keep rs ps,
    V₁.start = { S.state with current := e.task (S.task e.pid), now := e.now.toNat } ∧ V₁.files = W.files ∧
    V₁.caller rs ps = W.callerAt e ∧ V₁.point = V.point ∧ Home V₁ keep rs ps ∧
    keep = others + ∑ p ∈ pids.erase e.pid, (S.task p).spots ∧ V₁.base = V.base ∧
    ∀ j < nrInode, V.base j ≠ 0 → V₁.node j = V.node j := by
  obtain ⟨rs, ps, hdwells⟩ := h.dwells e.pid hp
  have hpoint (j : Nat) (hj : V.point j) : V.base j ≠ 0 := V.pinned j hj
  have hrefs : V.base = others + ∑ p ∈ pids.erase e.pid, (S.task p).spots + ref rs + ref ps := by
    rw [h.refs, ← Finset.sum_erase_add pids _ hp, hdwells.spots_eq]
    ac_rfl
  have hnode (j : Nat) (hj : j < nrInode) (hb : V.base j ≠ 0) : (S.state.inode j).node = V.node j :=
    (h.stands.slot j hj).pinned hb
  have hrs := hnode rs hdwells.root_lt (by rw [hrefs]; simp)
  have hps := hnode ps hdwells.pwd_lt (by rw [hrefs]; simp)
  have hstands : Stands (h.stands.view (e.task (S.task e.pid)) e.now.toNat V.base hpoint) 0 0
      { S.state with current := e.task (S.task e.pid), now := e.now.toNat } := h.stands.again _ _ rfl
  refine ⟨h.stands.view (e.task (S.task e.pid)) e.now.toNat V.base hpoint, _, rs, ps, rfl, h.files, ?_, rfl, ?_, rfl, rfl,
    hnode⟩
  · have hroot := hrs.trans hdwells.root_node
    have hpwd := hps.trans hdwells.pwd_node
    show (⟨(S.state.inode rs).node, (S.state.inode ps).node, e.uid, e.euid, e.gid, e.egid⟩ : Caller) = _
    rw [hroot, hpwd]
    rfl
  · refine ⟨hdwells.root, hdwells.pwd, hdwells.root_lt, hdwells.pwd_lt, ?_, ?_, hstands, hrefs, fun j hj => ?_,
      h.files ▸ h.whole⟩
    · have hlinked := hdwells.root_linked
      rw [← hdwells.root_node, ← hrs] at hlinked
      exact hlinked
    · have hlinked := hdwells.pwd_linked
      rw [← hdwells.pwd_node, ← hps] at hlinked
      exact hlinked
    · have hothers := h.points j hj
      rw [Pi.add_apply]
      omega

/-- The process `pid` has made a call. -/
theorem step {pid : Nat} {keep : Nat → Nat} {V' : View} {W' : World} {S' : System} (h : Between V pids others W S)
    (hp : pid ∈ pids) (hkeep : keep = others + ∑ p ∈ pids.erase pid, (S.task p).spots) (hhome : Home V' keep rs ps)
    (hstart : V'.start = S'.state) (hself : S'.task pid = S'.state.current)
    (hother : ∀ p ≠ pid, S'.task p = S.task p) (hfiles : V'.files = W'.files) (halike : Files.Alike W.files W'.files)
    (hcaller : V'.caller rs ps = W'.caller pid) (hold : ∀ p ≠ pid, W'.caller p = W.caller p)
    (hpoint : V'.point = V.point) (hnode : ∀ j < nrInode, keep j ≠ 0 → V'.node j = V.node j) :
    Between V' pids others W' S' := by
  have hdwells : Dwells V' (S'.task pid) (W'.caller pid) rs ps := by
    rw [hself, ← hstart, ← hcaller]
    exact ⟨hhome.root, hhome.pwd, hhome.root_lt, hhome.pwd_lt, rfl, rfl, hhome.root_linked, hhome.pwd_linked⟩
  refine ⟨hfiles, hstart, ?_, hpoint ▸ h.points, halike.whole h.whole, hstart ▸ hhome.stands, fun p hpids => ?_⟩
  · have hsum : ∑ p ∈ pids.erase pid, (S'.task p).spots = ∑ p ∈ pids.erase pid, (S.task p).spots :=
      Finset.sum_congr rfl fun p hp' => by rw [hother p (Finset.ne_of_mem_erase hp')]
    rw [hhome.refs, hkeep, ← Finset.sum_erase_add pids _ hp, hdwells.spots_eq, hsum]
    ac_rfl
  · rcases eq_or_ne p pid with rfl | hne
    · exact ⟨rs, ps, hdwells⟩
    · obtain ⟨r₁, p₁, hd⟩ := h.dwells p hpids
      have hsame (j : Nat) (hj : j < nrInode) (hspot : (S.task p).spots j ≠ 0) : V'.node j = V.node j := by
        have hle := Finset.single_le_sum (f := fun p => (S.task p).spots j) (fun _ _ => Nat.zero_le _)
          (Finset.mem_erase.mpr ⟨hne, hpids⟩)
        refine hnode j hj ?_
        rw [hkeep, Pi.add_apply, Finset.sum_apply]
        omega
      have hspots := hd.spots_eq
      rw [hother p hne, hold p hne]
      refine ⟨r₁, p₁, hd.root, hd.pwd, hd.root_lt, hd.pwd_lt, ?_, ?_, ?_, ?_⟩
      · rw [hsame r₁ hd.root_lt (by rw [hspots]; simp), hd.root_node]
      · rw [hsame p₁ hd.pwd_lt (by rw [hspots]; simp), hd.pwd_node]
      · exact hfiles ▸ halike.linked (h.files ▸ hd.root_linked)
      · exact hfiles ▸ halike.linked (h.files ▸ hd.pwd_linked)

end Between

/-! ## The calls -/

theorem Shows.serve (h : Shows pids others W S) (hp : e.pid ∈ pids)
    (hroom : ((Finset.range nrInode).filter fun i => others i ≠ 0).card + 2 * pids.card < nrInode)
    (hmounts : ∀ n, ∃ n', W.files.cross fuel n = some n') :
    ∃ a S', S.serve fuel e = .ok (a, S') ∧ Matches a (W.serve fuel e).1 ∧ Shows pids others (W.serve fuel e).2 S' := by
  obtain ⟨V, h⟩ := h
  obtain ⟨V₁, keep, rs, ps, hstart, hfiles, hcaller, hpoint, hhome, hkeep, hbase, hnode⟩ := h.home hp
  have hnow : V₁.start.now = e.now.toNat := by rw [hstart]
  have hrun := hhome.perform (m := ⟨V₁.start, []⟩) rfl (hbase ▸ h.free hroom) (hfiles ▸ hmounts) hnow e.request
  rw [hfiles, hcaller, hstart] at hrun
  unfold Runs Ends at hrun
  unfold System.serve
  cases hres : e.request.perform fuel
      ⟨{ S.state with current := e.task (S.task e.pid), now := e.now.toNat }, []⟩ with
  | error stop m =>
    rw [hres] at hrun
    exact hrun.elim
  | ok a m =>
    rw [hres] at hrun
    obtain ⟨ha, V', rs', ps', hstart', hfiles', hcaller', hpoint', hhome', hnode'⟩ := hrun
    refine ⟨a, _, rfl, ha, V', h.step hp hkeep hhome' hstart' (Function.update_self ..)
      (fun p hne => Function.update_of_ne hne ..) hfiles' (Request.reply_alike e.request) ?_
      (fun p hne => Function.update_of_ne hne ..) (hpoint'.trans hpoint) fun j hj hk => ?_⟩
    · have hnew : (W.serve fuel e).2.caller e.pid = (e.request.reply fuel e.now W.files (W.callerAt e)).caller :=
        Function.update_self ..
      exact hcaller'.trans hnew.symm
    · rw [hnode' j hj hk, hnode j hj]
      rw [← hbase]
      exact hhome.keep_base hk

/-- Whatever calls the processes make, in whatever order, each returns what the files say, and the tables stand for
the files and the processes afterwards. -/
theorem Shows.run_refines {es : List Event} (h : Shows pids others W S) (hes : ∀ e ∈ es, e.pid ∈ pids)
    (hroom : ((Finset.range nrInode).filter fun i => others i ≠ 0).card + 2 * pids.card < nrInode)
    (hmounts : ∀ n, ∃ n', W.files.cross fuel n = some n') :
    ∃ as S', S.run fuel es = .ok (as, S') ∧ List.Forall₂ Matches as (W.run fuel es).1 ∧
      Shows pids others (W.run fuel es).2 S' := by
  induction es generalizing W S with
  | nil => exact ⟨[], S, rfl, .nil, h⟩
  | cons e es ih =>
    obtain ⟨a, S₁, hserve, ha, h₁⟩ := h.serve (hes e (List.mem_cons_self ..)) hroom hmounts
    have halike : Files.Alike W.files (W.serve fuel e).2.files := Request.reply_alike e.request
    obtain ⟨as, S₂, hrun, has, h₂⟩ := ih h₁ (fun e' he' => hes e' (List.mem_cons_of_mem _ he')) fun n => by
      rw [halike.cross_eq]
      exact hmounts n
    refine ⟨a :: as, S₂, ?_, .cons ha has, h₂⟩
    unfold System.run
    rw [hserve]
    simp only [hrun]

/-! ## A small system -/

/-- An inode of the device `0x301`, for a directory with one zone. -/
def smallDir (nr size z : Nat) : MInode := { MInode.zero with
  iMode := 0o40755, iNlinks := 2, iCount := 2, iSize := size, iDev := 0x301, iNum := nr
  iZone := fun k => if k = 0 then z else 0 }

/-- The entries of a directory. -/
def smallEntries (l : List (UInt8 × List UInt8)) (p : Nat) : UInt8 :=
  let (nr, name) := l.getD (p / 16) (0, [])
  if p % 16 = 0 then nr else if p % 16 = 1 then 0 else name.getD (p % 16 - 2) 0

/-- The root has a directory `a`, with the number 2. -/
def smallDisk (b : Nat) : Nat → UInt8 :=
  if b = 4 then putDInode (smallDir 1 48 5) 0 (putDInode (smallDir 2 32 6) 1 fun _ => 0)
  else if b = 5 then smallEntries [(1, [46]), (1, [46, 46]), (2, [97])]
  else if b = 6 then smallEntries [(2, [46]), (1, [46, 46])]
  else fun _ => 0

def smallTask (i : Nat) : Task := ⟨some i, some i, 0, 0, 0, 0, 0, false, -1, 0, fun _ => none, 0⟩

def smallState : State where
  cache := fun _ => ⟨fun _ => none, smallDisk, fun _ => true, fun _ _ => 0⟩
  superBlock := fun _ => ⟨⟨64, 100, 1, 1, 5⟩, 0x301, none, fun _ => true, fun _ => true⟩
  inode := fun i => if i = 0 then smallDir 1 48 5 else if i = 1 then smallDir 2 32 6 else MInode.zero
  lastInode := 0
  file := fun _ => ⟨0, 0, 0, none, 0⟩
  current := smallTask 0
  ttyPgrp := fun _ => 0
  rootDev := 0x301
  now := 0
  floppyChange := fun _ => false

theorem fits_getDInode (data : Nat → UInt8) (j : Nat) (n : MInode) : (getDInode data j n).stored.Fits := by
  have hword (k : Nat) : Dev.word data k < 2 ^ 16 := by
    have hlow := (data (2 * k)).toNat_lt
    have hhigh := (data (2 * k + 1)).toNat_lt
    unfold Dev.word
    omega
  have hmode := hword (16 * j)
  have huid := hword (16 * j + 1)
  have hsize := hword (16 * j + 2)
  have hsize' := hword (16 * j + 3)
  have htime := hword (16 * j + 4)
  have htime' := hword (16 * j + 5)
  refine ⟨hmode, huid, ?_, ?_, (data (32 * j + 12)).toNat_lt, fun k => hword _⟩
  · show Dev.word data (16 * j + 2) + 2 ^ 16 * Dev.word data (16 * j + 3) < 2 ^ 32
    omega
  · show Dev.word data (16 * j + 4) + 2 ^ 16 * Dev.word data (16 * j + 5) < 2 ^ 32
    omega

def smallFiles : Files where
  file := smallState.diskInode 0
  block := fun _ => smallDisk
  first dev := if dev = 0x301 then some 5 else none
  inodes := fun _ => 2
  mounted := fun _ => none
  cover := fun _ => none
  fits _ := fits_getDInode _ _ _

theorem small_super (dev : Nat) : smallState.getSuper dev = if dev = 0x301 then some 0 else none := by
  by_cases hdev : dev = 0x301
  · subst hdev
    rfl
  · rw [if_neg hdev]
    unfold State.getSuper
    split
    · rfl
    · rw [List.find?_eq_none]
      intro k _
      show ¬ ((0x301 : Nat) == dev) = true
      simpa using fun heq => hdev heq.symm

theorem small_fits (nr size z : Nat) (hsize : size < 2 ^ 32) (hz : z < 2 ^ 16) : (smallDir nr size z).stored.Fits := by
  refine ⟨show 0o40755 < 2 ^ 16 by decide, show 0 < 2 ^ 16 by decide, hsize, show 0 < 2 ^ 32 by decide,
    show 0 < 2 ^ 8 by decide, fun k => ?_⟩
  show (if (k : Nat) = 0 then z else 0) < 2 ^ 16
  split
  · exact hz
  · decide

theorem small_root : smallFiles.file (0x301, 1) = (smallDir 1 48 5).stored := by
  have hput : (getDInode (putDInode (smallDir 1 48 5) 0 (putDInode (smallDir 2 32 6) 1 fun _ => 0)) 0
      MInode.zero).stored = (smallDir 1 48 5).stored := stored_put (small_fits 1 48 5 (by decide) (by decide)) MInode.zero
  exact hput

theorem small_a : smallFiles.file (0x301, 2) = (smallDir 2 32 6).stored := by
  have hother : (getDInode (putDInode (smallDir 1 48 5) 0 (putDInode (smallDir 2 32 6) 1 fun _ => 0)) 1
      MInode.zero).stored = (getDInode (putDInode (smallDir 2 32 6) 1 fun _ => 0) 1 MInode.zero).stored :=
    stored_put_other (by decide) MInode.zero
  have hput : (getDInode (putDInode (smallDir 2 32 6) 1 fun _ => 0) 1 MInode.zero).stored = (smallDir 2 32 6).stored :=
    stored_put (small_fits 2 32 6 (by decide) (by decide)) MInode.zero
  exact hother.trans hput

/-- Task 0 has its root and its directory in slot 0, and task 1 in slot 1. -/
def smallSystem : System := ⟨smallState, smallTask⟩

def smallView : View where
  files := smallFiles
  start := smallState
  base := 0 + ∑ p ∈ {0, 1}, (smallTask p).spots
  node i := (smallState.inode i).node
  point := fun _ => False
  first dev := by
    rw [small_super]
    show (if dev = 0x301 then some 5 else none) = _
    split <;> rfl
  inodes dev k _ nr hpos hle := by
    have hle : nr ≤ 2 := hle
    show 2 + 1 + 1 + (nr + (2 ^ 32 - 1)) % 2 ^ 32 / 32 < 5
    omega
  cover dev k hk := rfl
  imount dev k m _ hm := by cases hm
  pinned i hi := hi.elim
  onto i k hk := by
    unfold State.mountedOn at hk
    have hfound := List.find?_some hk
    cases hfound

theorem small_base (i : Nat) : smallView.base i = if i = 0 ∨ i = 1 then 2 else 0 := by
  show (0 + ∑ p ∈ {0, 1}, (smallTask p).spots) i = _
  rw [Finset.sum_pair (by decide)]
  simp only [Task.spots, smallTask, spot, Pi.add_apply, Pi.zero_apply, ref_apply]
  split_ifs <;> omega

theorem small_inode (i : Nat) : i = 0 ∧ smallState.inode i = smallDir 1 48 5 ∨
    i = 1 ∧ smallState.inode i = smallDir 2 32 6 ∨ i ≠ 0 ∧ i ≠ 1 ∧ smallState.inode i = MInode.zero := by
  show i = 0 ∧ (if i = 0 then _ else if i = 1 then _ else _) = _ ∨ i = 1 ∧ (if i = 0 then _ else if i = 1 then _ else _) = _ ∨
    i ≠ 0 ∧ i ≠ 1 ∧ (if i = 0 then _ else if i = 1 then _ else _) = _
  by_cases h0 : i = 0
  · exact .inl ⟨h0, if_pos h0⟩
  · rw [if_neg h0]
    by_cases h1 : i = 1
    · exact .inr (.inl ⟨h1, if_pos h1⟩)
    · exact .inr (.inr ⟨h0, h1, if_neg h1⟩)

/-- The slot of a directory. -/
theorem small_slot {i nr size z : Nat} (hnode : (smallState.inode i).node = (0x301, nr)) (hbase : smallView.base i = 2)
    (hnr : nr < 2 ^ 16) (hfile : smallFiles.file (0x301, nr) = (smallDir nr size z).stored) :
    Slot smallView i 0 (smallDir nr size z) where
  count := hbase.symm
  pinned _ := hnode.symm
  pipe hp := by cases hp
  num := hnr
  known _ _ := ⟨0, rfl⟩
  dirty hd := by cases hd
  copy _ _ := hfile.symm
  mounted _ := rfl
  mount hm := by cases hm

theorem small_stands : Stands smallView 0 0 smallState where
  frame := rfl
  bufs := rfl
  uptodate _ _ hq := absurd rfl hq
  works _ _ := rfl
  coherent _ := ⟨fun _ hup => (by cases hup), fun _ hd => (by cases hd)⟩
  slot i hi := by
    obtain ⟨rfl, hin⟩ | ⟨rfl, hin⟩ | ⟨h0, h1, hin⟩ := small_inode i
    · rw [hin]
      exact small_slot (congrArg MInode.node hin) (small_base 0) (by decide) small_root
    · rw [hin]
      exact small_slot (congrArg MInode.node hin) (small_base 1) (by decide) small_a
    · have hbase := small_base i
      rw [if_neg (by omega)] at hbase
      rw [hin]
      refine ⟨hbase.symm, fun hb => absurd hbase hb, fun _ => rfl, show 0 < 2 ^ 16 by decide, fun hne => absurd rfl hne,
        fun hd => (by cases hd), fun _ hk => (by cases hk), fun hne => absurd rfl hne, fun hm => by cases hm⟩
  unique i hi j hj hdev heq := by
    obtain ⟨rfl, hin⟩ | ⟨rfl, hin⟩ | ⟨h0, h1, hin⟩ := small_inode i
    all_goals
      obtain ⟨rfl, hjn⟩ | ⟨rfl, hjn⟩ | ⟨h0', h1', hjn⟩ := small_inode j
      all_goals
        first
          | rfl
          | rw [hin] at hdev
            exact absurd rfl hdev
          | rw [hin, hjn] at heq
            cases heq
  disk n k hk hn hclean := rfl
  data dev k b hk hb := rfl
  unmounted n hn hnone := rfl
  unlocked i hi := by
    obtain ⟨-, hin⟩ | ⟨-, hin⟩ | ⟨-, -, hin⟩ := small_inode i
    all_goals
      rw [hin]
      rfl

theorem small_valid {d : Node} (h : smallFiles.Valid d) : d = (0x301, 1) ∨ d = (0x301, 2) := by
  obtain ⟨⟨z, hz⟩, hpos, hle⟩ := h
  have hz : (if d.1 = 0x301 then some 5 else none) = some z := hz
  have hle : d.2 ≤ 2 := hle
  obtain ⟨dev, nr⟩ := d
  split at hz
  · next hdev =>
    have hdev : dev = 0x301 := hdev
    subst hdev
    simp only [Prod.mk.injEq, true_and] at hpos hle ⊢
    omega
  · cases hz

theorem small_linked {nr : Nat} (hnr : nr = 1 ∨ nr = 2) : smallFiles.Linked (0x301, nr) := by
  refine ⟨⟨⟨5, rfl⟩, ?_, ?_⟩, ?_⟩
  · show 0 < nr
    omega
  · show nr ≤ 2
    omega
  · rcases hnr with rfl | rfl
    · rw [small_root]
      decide
    · rw [small_a]
      decide

/-- The one zone of a directory, and the inodes of its entries. -/
theorem small_zone {d : Node} (h : smallFiles.Valid d) : ∃ z, (z = 5 ∨ z = 6) ∧ smallFiles.zone d 0 = z ∧
    (∀ k, (smallFiles.file d).iZone k = if (k : Nat) = 0 then z else 0) ∧ smallFiles.size d ≤ 3 ∧
    ∀ i < smallFiles.size d, entryInode (smallDisk z) i = 1 ∨ entryInode (smallDisk z) i = 2 := by
  obtain rfl | rfl := small_valid h
  · have hzone : (smallFiles.file (0x301, 1)).iZone = fun k : Fin 9 => if (k : Nat) = 0 then 5 else 0 := by
      rw [small_root]
      rfl
    have hsize : smallFiles.size (0x301, 1) = 3 := by
      rw [Files.size, small_root]
      rfl
    refine ⟨5, .inl rfl, ?_, fun k => by rw [hzone], by rw [hsize], fun i hi => ?_⟩
    · rw [Files.zone, dif_pos (by decide), hzone]
      rfl
    · rw [hsize] at hi
      interval_cases i <;> decide
  · have hzone : (smallFiles.file (0x301, 2)).iZone = fun k : Fin 9 => if (k : Nat) = 0 then 6 else 0 := by
      rw [small_a]
      rfl
    have hsize : smallFiles.size (0x301, 2) = 2 := by
      rw [Files.size, small_a]
      rfl
    refine ⟨6, .inr rfl, ?_, fun k => by rw [hzone], by rw [hsize]; decide, fun i hi => ?_⟩
    · rw [Files.zone, dif_pos (by decide), hzone]
      rfl
    · rw [hsize] at hi
      interval_cases i <;> decide

theorem small_whole : smallFiles.Whole where
  linked d hd name nr hnr := by
    obtain ⟨z, -, hzone, -, hsize, hentries⟩ := small_zone hd.toValid
    obtain ⟨i, hi, rfl⟩ := Option.map_eq_some_iff.mp hnr
    have hlt := List.mem_range.mp (List.mem_of_find?_eq_some hi)
    have hdiv : i / 64 = 0 := by omega
    have hmod : i % 64 = i := by omega
    have hbytes : smallFiles.entries d i = smallDisk z := by
      rw [Files.entries, hdiv, hzone]
      rfl
    rw [hbytes, hmod]
    have hdev : d.1 = 0x301 := by
      obtain rfl | rfl := small_valid hd.toValid <;> rfl
    rw [hdev]
    exact small_linked (hentries i hlt)
  dense d hd k hk := by
    obtain ⟨z, hz, hzone, -, hsize, -⟩ := small_zone hd.toValid
    have hk0 : k = 0 := by omega
    subst hk0
    rw [hzone]
    exact ⟨by decide, by omega⟩
  zones d hd z hz b hb hne := by
    obtain ⟨z', hz', -, hzones, -, -⟩ := small_zone hd.toValid
    have hz5 : z = 5 := by
      have hz : (if d.1 = 0x301 then some 5 else none) = some z := hz
      split at hz
      · cases hz
        rfl
      · cases hz
    have h7 : (smallFiles.file d).iZone 7 = 0 := hzones 7
    have h8 : (smallFiles.file d).iZone 8 = 0 := hzones 8
    have hindex (k : Nat) : smallFiles.index d.1 0 k = 0 := if_pos rfl
    cases hb with
    | direct k =>
      have hk := hzones k
      split at hk <;> omega
    | single => rw [h7, hindex] at hne; exact absurd rfl hne
    | indirect => rw [h8, hindex] at hne; exact absurd rfl hne
    | double => rw [h8, hindex, hindex] at hne; exact absurd rfl hne
  roots n dev h := by cases h
  covers dev m h := by cases h

def smallWorld : World := ⟨smallFiles, fun p => ⟨(0x301, p + 1), (0x301, p + 1), 0, 0, 0, 0⟩⟩

theorem small_shows : Shows {0, 1} 0 smallWorld smallSystem := by
  refine ⟨smallView, rfl, rfl, rfl, fun i hi => hi.elim, small_whole, small_stands, fun p hp => ⟨p, p, ?_⟩⟩
  have hp : p = 0 ∨ p = 1 := by simpa using hp
  have hnode : smallView.node p = (0x301, p + 1) := by rcases hp with rfl | rfl <;> rfl
  have hlinked : smallFiles.Linked (0x301, p + 1) := small_linked (by omega)
  exact ⟨rfl, rfl, by unfold nrInode; omega, by unfold nrInode; omega, hnode, hnode, hlinked, hlinked⟩

/-- Task 1 looks at its directory, and task 0 goes to the directory `a`. -/
theorem run_refines_small : ∃ as S',
    smallSystem.run 1 [⟨1, 0, 5, 5, 5, 5, .stat [46]⟩, ⟨0, 7, 0, 0, 0, 0, .chdir [97]⟩] = .ok (as, S') ∧
    List.Forall₂ Matches as
      (smallWorld.run 1 [⟨1, 0, 5, 5, 5, 5, .stat [46]⟩, ⟨0, 7, 0, 0, 0, 0, .chdir [97]⟩]).1 ∧
    Shows {0, 1} 0 (smallWorld.run 1 [⟨1, 0, 5, 5, 5, 5, .stat [46]⟩, ⟨0, 7, 0, 0, 0, 0, .chdir [97]⟩]).2 S' :=
  small_shows.run_refines (by decide) (by decide) fun n => ⟨n, rfl⟩

end Linux011.Path
