import Mathlib.Tactic.IntervalCases
import Linux011.Path.Service

/-!
# chroot

A process that has its root and its directory in a part of the tree does not get out of it by names, as long as it
makes no further `chroot`: the way up ends at its root.
-/

namespace Linux011.Path

open Linux011.Fs Linux011.Lib

/-! ## The tree below a root -/

namespace Files

variable (F : Files) (fuel : Nat) (root : Node)

/-- The files that names without `..` lead to. -/
inductive Below : Node → Prop
  | root : Below root
  | enter {d n : Node} {name : Name} (hd : Below d) (hzero : 0 ∉ name) (hname : name ≠ [46, 46])
      (hlook : (F.look root d name).bind (F.cross fuel) = some n) : Below n

/-- In the tree below the root, `..` leads to files of the tree, if it is not that of the root. -/
def Treelike : Prop :=
  ∀ d n, F.Below fuel root d → d ≠ root → (F.look root d [46, 46]).bind (F.cross fuel) = some n →
    F.Below fuel root n

variable {F fuel root} {d n : Node} {name : Name}

/-- At the root, `..` is `.`. -/
theorem look_root : F.look root root [46, 46] = F.look root root [46] := by
  have htwo : F.dotDot root root ([46, 46].take nameLen) = (root, [46]) := by
    simp [dotDot, nameLen]
  have hone : F.dotDot root root ([46].take nameLen) = (root, [46]) := by
    simp [dotDot, nameLen]
  simp [look, htwo, hone]

theorem Below.look (htree : F.Treelike fuel root) (hd : F.Below fuel root d) (hzero : 0 ∉ name)
    (h : (F.look root d name).bind (F.cross fuel) = some n) : F.Below fuel root n := by
  by_cases hname : name = [46, 46]
  · subst hname
    by_cases hroot : d = root
    · subst hroot
      rw [look_root] at h
      exact .enter hd (by decide) (by decide) h
    · exact htree d n hd hroot h
  · exact .enter hd hzero hname h

theorem mem_splitOn {x y : UInt8} {l part : List UInt8} (hpart : part ∈ l.splitOn x) (hy : y ∈ part) : y ∈ l := by
  induction l generalizing part with
  | nil =>
    rw [List.splitOn_nil, List.mem_singleton] at hpart
    rw [hpart] at hy
    exact hy
  | cons a l ih =>
    have hsplit : (a :: l).splitOn x = if (a == x) = true then [] :: l.splitOn x else (l.splitOn x).modifyHead (a :: ·) :=
      List.splitOnP_cons_eq_if_modifyHead ..
    rw [hsplit] at hpart
    split at hpart
    · rcases List.mem_cons.mp hpart with rfl | hrest
      · cases hy
      · exact List.mem_cons_of_mem _ (ih hrest hy)
    · cases hl : l.splitOn x with
      | nil =>
        rw [hl] at hpart
        cases hpart
      | cons first rest =>
        rw [hl, List.modifyHead_cons] at hpart
        rcases List.mem_cons.mp hpart with rfl | hrest
        · rcases List.mem_cons.mp hy with rfl | hfirst
          · exact List.mem_cons_self ..
          · exact List.mem_cons_of_mem _ (ih (hl ▸ List.mem_cons_self ..) hfirst)
        · exact List.mem_cons_of_mem _ (ih (hl ▸ List.mem_cons_of_mem _ hrest) hy)

theorem zero_components {path : Name} (h : 0 ∉ path) (hname : name ∈ components path) : 0 ∉ name := by
  intro hmem
  unfold components at hname
  split at hname
  · exact h (List.mem_of_mem_tail (mem_splitOn hname hmem))
  · exact h (mem_splitOn hname hmem)

/-! ## Names of a process below the root -/

variable {G : Files} {c : Caller} {path : Name}

theorem Below.follow (htree : F.Treelike fuel root) (halike : Alike F G) (hc : c.root = root) {names : List Name}
    (hnames : ∀ name ∈ names, 0 ∉ name) (hd : F.Below fuel root d) (h : G.follow fuel c names d = some n) :
    F.Below fuel root n := by
  induction names generalizing d with
  | nil =>
    unfold Files.follow at h
    split at h
    · cases h
    · cases h
      exact hd
  | cons name names ih =>
    unfold Files.follow at h
    split at h
    · cases h
    · obtain ⟨n', hlook, hrest⟩ := Option.bind_eq_some_iff.mp h
      rw [halike.look_eq, halike.cross_eq, hc] at hlook
      exact ih (fun name' hmem => hnames name' (List.mem_cons_of_mem _ hmem))
        (hd.look htree (hnames name (List.mem_cons_self ..)) hlook) hrest

theorem Below.resolve (htree : F.Treelike fuel root) (halike : Alike F G) (hc : c.root = root) (hzero : 0 ∉ path)
    (hpwd : F.Below fuel root c.pwd) (h : G.resolve fuel c path = some n) : F.Below fuel root n := by
  obtain ⟨d, hlead, h⟩ := Option.bind_eq_some_iff.mp h
  have hd : F.Below fuel root d := by
    unfold lead at hlead
    split at hlead
    · cases hlead
    · refine Below.follow htree halike hc (fun name hname => zero_components hzero (List.mem_of_mem_dropLast hname))
        ?_ hlead
      split
      · exact hc ▸ .root
      · exact hpwd
  simp only at h
  split at h
  · cases h
    exact hd
  · next hlast =>
    rw [halike.look_eq, halike.cross_eq, hc] at h
    have hmem : (components path).getLastD [] ∈ components path := by
      cases hl : components path with
      | nil =>
        rw [hl] at hlast
        exact absurd rfl hlast
      | cons a l =>
        rw [List.getLastD_eq_getLast?, List.getLast?_eq_some_getLast (List.cons_ne_nil a l)]
        exact List.getLast_mem _
    exact hd.look htree (zero_components hzero hmem) h

end Files

/-! ## Calls of a process below the root -/

/-- All that a reply is about is in a set of files. -/
structure Reply.Inside (B : Node → Prop) (F : Files) (c : Caller) (R : Reply) : Prop where
  root : R.caller.root = c.root
  pwd : B R.caller.pwd
  told : ∀ f, R.told = some f → B f.1
  files : ∀ n, ¬ B n → R.files.file n = F.file n

section

variable {B : Node → Prop} {F : Files} {c : Caller} {n : Node} {now : UInt32} {q : Request}

theorem inside_change {D : DiskInode} (hD : D.Fits) (hn : B n) (hpwd : B c.pwd) (code : Int) :
    Reply.Inside B F c ⟨code, none, F.change n D hD, c⟩ := by
  refine ⟨rfl, hpwd, fun _ hf => (by cases hf), fun n' hn' => ?_⟩
  have hne : n' ≠ n := by
    rintro rfl
    exact hn' hn
  exact Function.update_of_ne hne ..

theorem inside_none (hpwd : B c.pwd) (code : Int) : Reply.Inside B F c ⟨code, none, F, c⟩ :=
  ⟨rfl, hpwd, fun _ hf => (by cases hf), fun _ _ => rfl⟩

theorem act_inside (hq : q ≠ .chroot q.filename) (hn : B n) (hpwd : B c.pwd) :
    Reply.Inside B F c (q.act now F c n) := by
  cases q with
  | access => exact inside_none hpwd _
  | stat =>
    refine ⟨rfl, hpwd, fun f hf => ?_, fun _ _ => rfl⟩
    cases hf
    exact hn
  | chdir =>
    simp only [Request.act]
    split
    · exact ⟨rfl, hn, fun _ hf => (by cases hf), fun _ _ => rfl⟩
    · exact inside_none hpwd _
  | chroot => exact absurd rfl hq
  | chmod =>
    simp only [Request.act]
    split
    · exact inside_change _ hn hpwd _
    · exact inside_none hpwd _
  | chown =>
    simp only [Request.act]
    split
    · exact inside_change _ hn hpwd _
    · exact inside_none hpwd _
  | utime => exact inside_change _ hn hpwd _

end

/-- The processes `jailed` have the same root, and their directories are below it. -/
structure Jailed (F : Files) (fuel : Nat) (root : Node) (jailed : Finset Nat) (W : World) : Prop where
  alike : Files.Alike F W.files
  roots : ∀ p ∈ jailed, (W.caller p).root = root
  pwds : ∀ p ∈ jailed, F.Below fuel root (W.caller p).pwd

section

variable {F : Files} {fuel : Nat} {root : Node} {jailed pids : Finset Nat} {others : Nat → Nat} {W : World}
  {S : System} {e : Event}

theorem Jailed.reply (h : Jailed F fuel root jailed W) (htree : F.Treelike fuel root) (hzero : 0 ∉ e.request.filename)
    (hq : e.request ≠ .chroot e.request.filename) (hp : e.pid ∈ jailed) :
    Reply.Inside (F.Below fuel root) W.files (W.callerAt e)
      (e.request.reply fuel e.now W.files (W.callerAt e)) := by
  have hpwd : F.Below fuel root (W.callerAt e).pwd := h.pwds e.pid hp
  cases hn : W.files.resolve fuel (W.callerAt e) e.request.filename with
  | none =>
    rw [Request.reply_none hn]
    exact inside_none hpwd _
  | some n =>
    rw [Request.reply_some hn]
    have hroot : (W.callerAt e).root = root := h.roots e.pid hp
    exact act_inside hq (Files.Below.resolve htree h.alike hroot hzero hpwd hn) hpwd

theorem Jailed.serve (h : Jailed F fuel root jailed W) (htree : F.Treelike fuel root) (hzero : 0 ∉ e.request.filename)
    (hq : e.pid ∈ jailed → e.request ≠ .chroot e.request.filename) : Jailed F fuel root jailed (W.serve fuel e).2 := by
  have hself : (W.serve fuel e).2.caller e.pid = (e.request.reply fuel e.now W.files (W.callerAt e)).caller :=
    Function.update_self ..
  have hother (p : Nat) (hne : p ≠ e.pid) : (W.serve fuel e).2.caller p = W.caller p := Function.update_of_ne hne ..
  refine ⟨h.alike.trans (Request.reply_alike e.request), fun p hp => ?_, fun p hp => ?_⟩
  all_goals
    rcases eq_or_ne p e.pid with rfl | hne
    · have hreply := h.reply htree hzero (hq hp) hp
      rw [hself]
      first
        | exact hreply.root.trans (h.roots _ hp)
        | exact hreply.pwd
    · rw [hother p hne]
      first
        | exact h.roots p hp
        | exact h.pwds p hp

/-- Processes that have their root and their directories below a directory, and that do not call `chroot`, are told
of files below it only, and change no others, whatever else goes on. -/
theorem chroot_confines {es : List Event} (h : Shows pids others W S) (hes : ∀ e ∈ es, e.pid ∈ pids)
    (hroom : ((Finset.range nrInode).filter fun i => others i ≠ 0).card + 2 * pids.card < nrInode)
    (hmounts : ∀ n, ∃ n', W.files.cross fuel n = some n') (hjailed : Jailed F fuel root jailed W)
    (hpids : jailed ⊆ pids) (htree : F.Treelike fuel root) (hzero : ∀ e ∈ es, 0 ∉ e.request.filename)
    (hq : ∀ e ∈ es, e.pid ∈ jailed → e.request ≠ .chroot e.request.filename) :
    ∃ as S' W', S.run fuel es = .ok (as, S') ∧ Shows pids others W' S' ∧
      List.Forall₂ (fun (e : Event) (a : Int × Option Stat) => e.pid ∈ jailed → ∀ st, a.2 = some st →
        F.Below fuel root (st.stDev, st.stIno)) es as ∧
      (∀ p ∈ jailed, ∃ i < nrInode, (S'.task p).pwd = some i ∧ F.Below fuel root (S'.state.inode i).node) ∧
      ((∀ e ∈ es, e.pid ∈ jailed) → ∀ n, ¬ F.Below fuel root n → W'.files.file n = W.files.file n) := by
  induction es generalizing W S with
  | nil =>
    refine ⟨[], S, W, rfl, h, .nil, fun p hp => ?_, fun _ _ _ => rfl⟩
    obtain ⟨V, hV⟩ := h
    obtain ⟨rs, ps, hd⟩ := hV.dwells p (hpids hp)
    refine ⟨ps, hd.pwd_lt, hd.pwd, ?_⟩
    rw [(hV.stands.slot ps hd.pwd_lt).pinned, hd.pwd_node]
    · exact hjailed.pwds p hp
    · have hle := Finset.single_le_sum (f := fun p => (S.task p).spots ps) (fun _ _ => Nat.zero_le _) (hpids hp)
      have hspots := congrFun hd.spots_eq ps
      rw [hV.refs, Pi.add_apply, Finset.sum_apply]
      simp only [Pi.add_apply, ref_apply, if_pos] at hspots
      omega
  | cons e es ih =>
    have he := hes e (List.mem_cons_self ..)
    have hzero₁ := hzero e (List.mem_cons_self ..)
    have hq₁ := hq e (List.mem_cons_self ..)
    obtain ⟨a, S₁, hserve, ha, h₁⟩ := h.serve he hroom hmounts
    have halike : Files.Alike W.files (W.serve fuel e).2.files := Request.reply_alike e.request
    obtain ⟨as, S₂, W₂, hrun, h₂, has, hpwd, hfiles⟩ := ih h₁ (fun e' he' => hes e' (List.mem_cons_of_mem _ he'))
      (fun n => by rw [halike.cross_eq]; exact hmounts n) (hjailed.serve htree hzero₁ hq₁)
      (fun e' he' => hzero e' (List.mem_cons_of_mem _ he')) fun e' he' => hq e' (List.mem_cons_of_mem _ he')
    refine ⟨a :: as, S₂, W₂, ?_, h₂, .cons (fun hp st hst => ?_) has, hpwd, fun hall n hn => ?_⟩
    · unfold System.run
      rw [hserve]
      simp only [hrun]
    · have hreply := hjailed.reply htree hzero₁ (hq₁ hp) hp
      obtain ⟨-, htold⟩ := ha
      rw [hst] at htold
      cases hf : (W.serve fuel e).1.2 with
      | none =>
        rw [hf] at htold
        cases htold
      | some f =>
        rw [hf] at htold
        cases htold with
        | some htells =>
          have hbelow := hreply.told f hf
          rw [htells.dev, htells.ino]
          exact hbelow
    · have hreply := hjailed.reply htree hzero₁ (hq₁ (hall e (List.mem_cons_self ..))) (hall e (List.mem_cons_self ..))
      exact (hfiles (fun e' he' => hall e' (List.mem_cons_of_mem _ he')) n hn).trans (hreply.files n hn)

end

theorem small_parent {name : Name} (hzero : 0 ∉ name) (h : matchName name (smallDisk 6) 1 = true) : name = [46, 46] := by
  unfold matchName at h
  simp only [Bool.and_eq_true, List.all_eq_true, List.mem_range, beq_iff_eq] at h
  obtain ⟨⟨-, hend⟩, hall⟩ := h
  match name with
  | [] =>
    have hend : (decide (nameLen ≤ 0) || entryName (smallDisk 6) 1 0 == 0) = true := hend
    exact absurd hend (by decide)
  | [a] =>
    have hend : (decide (nameLen ≤ 1) || entryName (smallDisk 6) 1 1 == 0) = true := hend
    exact absurd hend (by decide)
  | [a, b] =>
    have ha : a = 46 := hall 0 (by simp)
    have hb : b = 46 := hall 1 (by simp)
    rw [ha, hb]
  | a :: b :: c :: rest =>
    have hc : c = 0 := hall 2 (by simp)
    subst hc
    exact absurd (by simp) hzero

/-- There is nothing but the directory `a` below itself. -/
theorem small_below {d : Node} (h : smallFiles.Below 1 (0x301, 2) d) : d = (0x301, 2) := by
  induction h with
  | root => rfl
  | enter hd hzero hname hlook ih =>
    subst ih
    rename_i n name
    obtain ⟨n₀, hn₀, hcross⟩ := Option.bind_eq_some_iff.mp hlook
    have hn : n₀ = n := by
      cases hcross
      rfl
    subst hn
    obtain ⟨name', hzero', hname', hdot⟩ : ∃ name', 0 ∉ name' ∧ name' ≠ [46, 46] ∧
        smallFiles.dotDot (0x301, 2) (0x301, 2) (name.take nameLen) = ((0x301, 2), name') := by
      by_cases htake : name.take nameLen = [46, 46]
      · exact ⟨[46], by decide, by decide, by rw [Files.dotDot, if_pos htake, if_pos rfl]⟩
      · exact ⟨_, fun hmem => hzero (List.mem_of_mem_take hmem), htake, by rw [Files.dotDot, if_neg htake]⟩
    have hsize : smallFiles.size (0x301, 2) = 2 := by
      rw [Files.size, small_a]
      rfl
    unfold Files.look at hn₀
    rw [hdot, hsize] at hn₀
    split at hn₀
    · cases hn₀
    · simp only at hn₀
      split at hn₀
      · cases hn₀
      · obtain ⟨nr, hnr, rfl⟩ := Option.map_eq_some_iff.mp hn₀
        obtain ⟨i, hi, rfl⟩ := Option.map_eq_some_iff.mp hnr
        have hlt := List.mem_range.mp (List.mem_of_find?_eq_some hi)
        have hentry := List.find?_some hi
        have hbytes : smallFiles.entries (0x301, 2) i = smallDisk 6 := by
          have hdiv : i / 64 = 0 := by omega
          rw [Files.entries, hdiv, Files.zone, dif_pos (by decide), small_a]
          rfl
        rw [Files.isEntry, hbytes] at hentry
        rw [hbytes]
        interval_cases i
        · rfl
        · exact absurd (small_parent hzero' hentry) hname'

/-- Task 1 tries to get out by `..`, and task 0 changes the root directory. -/
theorem chroot_confines_small : ∃ as S' W',
    smallSystem.run 1 [⟨1, 0, 5, 5, 5, 5, .stat [46, 46]⟩, ⟨0, 7, 0, 0, 0, 0, .chmod [47] 0o700⟩] = .ok (as, S') ∧
    Shows {0, 1} 0 W' S' ∧
    List.Forall₂ (fun (e : Event) (a : Int × Option Stat) => e.pid ∈ ({1} : Finset Nat) → ∀ st, a.2 = some st →
      smallFiles.Below 1 (0x301, 2) (st.stDev, st.stIno))
      [⟨1, 0, 5, 5, 5, 5, .stat [46, 46]⟩, ⟨0, 7, 0, 0, 0, 0, .chmod [47] 0o700⟩] as ∧
    (∀ p ∈ ({1} : Finset Nat), ∃ i < nrInode, (S'.task p).pwd = some i ∧
      smallFiles.Below 1 (0x301, 2) (S'.state.inode i).node) ∧
    ((∀ e ∈ [(⟨1, 0, 5, 5, 5, 5, .stat [46, 46]⟩ : Event), ⟨0, 7, 0, 0, 0, 0, .chmod [47] 0o700⟩],
      e.pid ∈ ({1} : Finset Nat)) → ∀ n, ¬ smallFiles.Below 1 (0x301, 2) n → W'.files.file n = smallFiles.file n) := by
  refine chroot_confines small_shows (by decide) (by decide) (fun n => ⟨n, rfl⟩) ⟨.refl, fun p hp => ?_, fun p hp => ?_⟩
    (by decide) (fun d n hd hne _ => absurd (small_below hd) hne) (by decide) ?_
  · rw [Finset.mem_singleton.mp hp]
    rfl
  · rw [Finset.mem_singleton.mp hp]
    exact .root
  · intro e he hpid
    simp only [List.mem_cons, List.not_mem_nil, or_false] at he
    rcases he with rfl | rfl <;> intro h <;> cases h

end Linux011.Path
