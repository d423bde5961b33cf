import Mathlib.Data.Finset.Card
import Linux011.Kernel.Family
import Linux011.Kernel.Process
import Linux011.Lib.Outcome
import Linux011.Lib.Run

/-!
# Every child is waited for once

The steps of `Linux011.Kernel.Process` keep the families of `Linux011.Kernel.Family` in order, and a
ledger, which is written from what the steps report only, agrees with the tasks: which times a task
has got from its children, and which child a `sys_waitpid` that has released it is about to return.
-/

namespace Linux011.Kernel

namespace Proc

/-- In `do_exit`, or a zombie. -/
def gone (T : Proc) : Bool :=
  match T.phase with
  | .exiting _ => true
  | _ => false

def member (T : Proc) : Member := ⟨T.pid, T.father, T.gone⟩

/-- The task has released the zombie `z`. -/
def reap (z T : Proc) : Proc :=
  { T with
    cutime := T.cutime + z.utime
    cstime := T.cstime + z.stime
    phase := .reaped z.pid z.exitCode }

/-- Everything but the father and the signals. -/
def rest (T : Proc) : Proc := { T with father := 0, signal := 0 }

end Proc

namespace Procs

def family (s : Procs) : Family := fun i => (s.task i).map Proc.member

def rest (s : Procs) : Nat → Option Proc := fun i => (s.task i).map Proc.rest

variable {s s' : Procs} {i j t : Nat} {T : Proc} {f : Proc → Proc}

/-! ## Changing one task -/

theorem modify_task (hT : s.task t = some T) :
    (s.modify t f).task = Function.update s.task t (some (f T)) := by
  simp [modify, hT]

theorem family_modify (hT : s.task t = some T) :
    (s.modify t f).family = Function.update s.family t (some (f T).member) := by
  funext j
  by_cases hj : j = t
  · subst hj
    simp [family, modify_task hT]
  · simp [family, modify_task hT, hj]

/-- Signals and fathers are all that a step may change in other tasks. -/
structure Alike (s s' : Procs) : Prop where
  family : s'.family = s.family
  rest : s'.rest = s.rest
  lastPid : s'.lastPid = s.lastPid

theorem Alike.refl : Alike s s := ⟨rfl, rfl, rfl⟩

theorem Alike.trans {s'' : Procs} (h : Alike s s') (h' : Alike s' s'') : Alike s s'' :=
  ⟨h'.family.trans h.family, h'.rest.trans h.rest, h'.lastPid.trans h.lastPid⟩

theorem alike_modify (hmember : ∀ T, (f T).member = T.member) (hrest : ∀ T, (f T).rest = T.rest) :
    Alike s (s.modify t f) := by
  refine ⟨?_, ?_, rfl⟩
  · funext j
    by_cases hj : j = t
    · subst hj
      cases hT : s.task j with
      | none => simp [family, modify, hT]
      | some T => simp [family, modify, hT, hmember]
    · simp [family, modify, hj]
  · funext j
    by_cases hj : j = t
    · subst hj
      cases hT : s.task j with
      | none => simp [Procs.rest, modify, hT]
      | some T => simp [Procs.rest, modify, hT, hrest]
    · simp [Procs.rest, modify, hj]

theorem alike_sendSig (t sig : Nat) : Alike s (s.sendSig t sig) :=
  alike_modify (fun _ => rfl) fun _ => rfl

theorem alike_killSession {session : Int} : Alike s (s.killSession session) := by
  unfold killSession
  generalize List.range nrTasks = is
  induction is generalizing s with
  | nil => exact .refl
  | cons i is ih =>
    rw [List.foldl_cons]
    split
    · exact (alike_sendSig ..).trans ih
    · exact ih

theorem Alike.symm (h : Alike s s') : Alike s' s :=
  ⟨h.family.symm, h.rest.symm, h.lastPid.symm⟩

theorem task_of_rest (hrest : s'.rest = s.rest) (hT : s.task i = some T) :
    ∃ T', s'.task i = some T' ∧ T'.rest = T.rest := by
  have hi : (s'.task i).map Proc.rest = (s.task i).map Proc.rest := congrFun hrest i
  rw [hT, Option.map_some] at hi
  exact Option.map_eq_some_iff.mp hi

theorem Alike.task (h : Alike s s') {T' : Proc} (hT' : s'.task i = some T') :
    ∃ T, s.task i = some T ∧ T'.rest = T.rest ∧ T'.member = T.member := by
  obtain ⟨T, hT, hrest⟩ := task_of_rest h.rest.symm hT'
  have hfam := congrFun h.family i
  exact ⟨T, hT, hrest.symm, by simpa [Procs.family, hT', hT] using hfam⟩

/-! ## The first loop of `do_exit` -/

/-- A child of `pid` becomes one of task 1. -/
def moved (pid : Int) (m : Member) : Member :=
  { m with father := if m.father = pid then 1 else m.father }

theorem reparent_family {pid : Int} :
    (s.reparent pid i).family = Function.update s.family i ((s.family i).map (moved pid)) := by
  unfold reparent
  cases hT : s.task i with
  | none =>
    have hnone : s.family i = none := by simp [family, hT]
    rw [hnone, Option.map_none, ← hnone, Function.update_eq_self]
  | some T =>
    have hsome : s.family i = some T.member := by simp [family, hT]
    dsimp only
    by_cases hfather : T.father = pid
    · rw [if_pos hfather]
      have hmove : (s.modify i fun T => { T with father := 1 }).family =
          Function.update s.family i ((s.family i).map (moved pid)) := by
        rw [family_modify hT, hsome]
        simp [Proc.member, moved, hfather, Proc.gone]
      split
      · rw [(alike_sendSig ..).family, hmove]
      · exact hmove
    · rw [if_neg hfather, hsome]
      have hsame : moved pid T.member = T.member := by simp [moved, Proc.member, hfather]
      rw [Option.map_some, hsame, ← hsome, Function.update_eq_self]

theorem reparent_rest {pid : Int} :
    (s.reparent pid i).rest = s.rest ∧ (s.reparent pid i).lastPid = s.lastPid := by
  unfold reparent
  cases hT : s.task i with
  | none => exact ⟨rfl, rfl⟩
  | some T =>
    have hmove : (s.modify i fun T => { T with father := 1 }).rest = s.rest := by
      funext j
      by_cases hj : j = i
      · subst hj
        simp [rest, modify, hT, Proc.rest]
      · simp [rest, modify, hj]
    dsimp only
    split
    · split
      · exact ⟨(alike_sendSig ..).rest.trans hmove, rfl⟩
      · exact ⟨hmove, rfl⟩
    · exact ⟨rfl, rfl⟩

/-- The loop, after `n` turns. -/
theorem reparent_loop (pid : Int) (n : Nat) :
    ((List.range n).foldl (reparent pid) s).family =
      (fun j => if j < n then (s.family j).map (moved pid) else s.family j) ∧
    ((List.range n).foldl (reparent pid) s).rest = s.rest ∧
    ((List.range n).foldl (reparent pid) s).lastPid = s.lastPid := by
  induction n with
  | zero => simp
  | succ n ih =>
    obtain ⟨hfam, hrest, hlast⟩ := ih
    rw [List.range_succ, List.foldl_append, List.foldl_cons, List.foldl_nil]
    refine ⟨?_, reparent_rest.1.trans hrest, reparent_rest.2.trans hlast⟩
    rw [reparent_family, hfam]
    funext j
    by_cases hj : j = n
    · subst hj
      simp
    · rw [Function.update_of_ne hj]
      by_cases hlt : j < n
      · rw [if_pos hlt, if_pos (by omega)]
      · rw [if_neg hlt, if_neg (by omega)]

/-! ## The invariant -/

structure Inv (s : Procs) : Prop where
  bound : ∀ i T, s.task i = some T → i < nrTasks
  family : s.family.Ok
  zombie : ∀ i T, s.task i = some T → T.state = .zombie → T.gone = true
  lastPid : 0 ≤ s.lastPid ∧ s.lastPid < 2 ^ 31

theorem family_eq (hT : s.task i = some T) : s.family i = some T.member := by
  simp [Procs.family, hT]

theorem family_some {m : Member} (h : s.family i = some m) : ∃ T, s.task i = some T ∧ T.member = m :=
  Option.map_eq_some_iff.mp h

theorem Inv.congr (h : s.Inv) (hs : Alike s s') : s'.Inv := by
  refine ⟨fun i T' hT' => ?_, hs.family ▸ h.family, fun i T' hT' hz => ?_, hs.lastPid ▸ h.lastPid⟩
  · obtain ⟨T, hT, -⟩ := hs.task hT'
    exact h.bound i T hT
  · obtain ⟨T, hT, hrest, hmember⟩ := hs.task hT'
    have hstate : T'.rest.state = T.rest.state := congrArg Proc.state hrest
    have hgone : T'.gone = T.gone := congrArg Member.gone hmember
    rw [hgone]
    exact h.zombie i T hT (hstate ▸ hz)

/-- A task changes, and is the same member of its family. -/
theorem Inv.modify (h : s.Inv) (hT : s.task t = some T) (hmember : (f T).member = T.member)
    (hzombie : (f T).state = .zombie → T.gone = true) : (s.modify t f).Inv := by
  have hgone : (f T).gone = T.gone := congrArg Member.gone hmember
  refine ⟨fun i U hU => ?_, ?_, fun i U hU hz => ?_, h.lastPid⟩
  · rw [modify_task hT] at hU
    by_cases hi : i = t
    · exact hi ▸ h.bound t T hT
    · rw [Function.update_of_ne hi] at hU
      exact h.bound i U hU
  · rw [family_modify hT, hmember, ← family_eq hT, Function.update_eq_self]
    exact h.family
  · rw [modify_task hT] at hU
    by_cases hi : i = t
    · subst hi
      rw [Function.update_self] at hU
      cases hU
      rw [hgone]
      exact hzombie hz
    · rw [Function.update_of_ne hi] at hU
      exact h.zombie i U hU hz

/-! ## `fork` -/

theorem inUse_iff {pid : Int} :
    s.inUse pid = true ↔ ∃ i T, i < nrTasks ∧ s.task i = some T ∧ T.pid = pid := by
  simp only [inUse, List.any_eq_true, List.mem_range]
  constructor
  · rintro ⟨i, hi, hany⟩
    cases hT : s.task i with
    | none => simp [hT] at hany
    | some T => exact ⟨i, T, hi, hT, by simpa [hT] using hany⟩
  · rintro ⟨i, T, hi, hT, hpid⟩
    exact ⟨i, hi, by simp [hT, hpid]⟩

theorem freshPid_spec {n : Nat} {last pid : Int} (h0 : 0 ≤ last)
    (h : s.freshPid n last = some pid) : s.inUse pid = false ∧ 0 < pid ∧ pid < 2 ^ 31 := by
  induction n generalizing last with
  | zero => cases h
  | succ n ih =>
    have hnext : 0 < nextPid last ∧ nextPid last < 2 ^ 31 := by
      unfold nextPid
      split <;> omega
    simp only [freshPid] at h
    split at h
    · exact ih (le_of_lt hnext.1) h
    · next hfree =>
      cases h
      exact ⟨Bool.eq_false_iff.mpr hfree, hnext⟩

/-! ### The loop of `find_empty_process` ends -/

theorem nextPid_iterate {last : Int} (h0 : 0 ≤ last) (hmax : last < 2 ^ 31) {k : Nat}
    (hk : k ≤ nrTasks + 1) : nextPid^[k] last =
      if last + k < 2 ^ 31 then last + k else last + k - (2 ^ 31 - 1) := by
  unfold nrTasks at hk
  induction k with
  | zero =>
    rw [if_pos (by simpa using hmax)]
    simp
  | succ k ih =>
    rw [Function.iterate_succ_apply', ih (by omega)]
    unfold nextPid
    push_cast
    split <;> split <;> split <;> omega

theorem freshPid_none {n : Nat} {last : Int} (h : s.freshPid n last = none) :
    ∀ k < n, s.inUse (nextPid^[k + 1] last) = true := by
  induction n generalizing last with
  | zero => exact fun k hk => absurd hk (Nat.not_lt_zero k)
  | succ n ih =>
    simp only [freshPid] at h
    split at h
    · next huse =>
      intro k hk
      cases k with
      | zero => exact huse
      | succ k =>
        rw [Function.iterate_succ_apply]
        exact ih h k (by omega)
    · cases h

/-- There are more pids than tasks, so the loop finds one. -/
theorem findEmptyProcess_isSome (h0 : 0 ≤ s.lastPid) (hmax : s.lastPid < 2 ^ 31) :
    s.findEmptyProcess.isSome = true := by
  unfold findEmptyProcess
  rw [Option.isSome_map]
  cases hfresh : s.freshPid (nrTasks + 1) s.lastPid with
  | some pid => rfl
  | none =>
    -- each of the pids tried belongs to a slot, and no two to the same
    have hslot : ∀ k : Nat, ∃ i, k < nrTasks + 1 →
        i < nrTasks ∧ ∃ T, s.task i = some T ∧ T.pid = nextPid^[k + 1] s.lastPid := by
      intro k
      by_cases hk : k < nrTasks + 1
      · obtain ⟨i, T, hi, hT, hpid⟩ := inUse_iff.mp (freshPid_none hfresh k hk)
        exact ⟨i, fun _ => ⟨hi, T, hT, hpid⟩⟩
      · exact ⟨0, fun h => absurd h hk⟩
    choose slot hslot using hslot
    have hmaps : ∀ k ∈ Finset.range (nrTasks + 1), slot k ∈ Finset.range nrTasks := fun k hk =>
      Finset.mem_range.mpr (hslot k (Finset.mem_range.mp hk)).1
    obtain ⟨k, hk, l, hl, hne, heq⟩ := Finset.exists_ne_map_eq_of_card_lt_of_maps_to
      (by simp) hmaps
    obtain ⟨-, T, hT, hpid⟩ := hslot k (Finset.mem_range.mp hk)
    obtain ⟨-, U, hU, hpid'⟩ := hslot l (Finset.mem_range.mp hl)
    rw [heq] at hT
    cases hT.symm.trans hU
    have hsame := hpid.symm.trans hpid'
    have hk' := Finset.mem_range.mp hk
    have hl' := Finset.mem_range.mp hl
    rw [nextPid_iterate h0 hmax (by omega), nextPid_iterate h0 hmax (by omega)] at hsame
    unfold nrTasks at hk' hl'
    push_cast at hsame
    split at hsame <;> split at hsame <;> omega

/-- How `fork` ends: without a child, or with one in a free slot and with a pid of its own. -/
theorem sysFork_cases {memory : Bool} {r : Outcome × Procs} (h0 : 0 ≤ s.lastPid)
    (h : s.sysFork T memory = some r) : ∃ pid, (0 < pid ∧ pid < 2 ^ 31) ∧ s.inUse pid = false ∧
      (r = (.forked (-eAgain) none, { s with lastPid := pid }) ∨
      ∃ nr, nr < nrTasks ∧ s.task nr = none ∧
        r = (.forked pid (some nr),
          { task := Function.update s.task nr (some (child T pid)), lastPid := pid })) := by
  obtain ⟨⟨slot, s'⟩, hfind, hr⟩ := Option.map_eq_some_iff.mp h
  obtain ⟨pid, hpid, heq⟩ := Option.map_eq_some_iff.mp hfind
  obtain ⟨rfl, rfl⟩ := Prod.mk.inj heq
  obtain ⟨hfree, hpos⟩ := freshPid_spec h0 hpid
  refine ⟨pid, hpos, hfree, ?_⟩
  cases hslot : (List.range nrTasks).find? fun i => 1 ≤ i && (s.task i).isNone with
  | none =>
    rw [hslot] at hr
    exact .inl hr.symm
  | some nr =>
    rw [hslot] at hr
    cases memory with
    | false => exact .inl hr.symm
    | true =>
      have hmem := List.mem_of_find?_eq_some hslot
      have hnone := List.find?_some hslot
      refine .inr ⟨nr, List.mem_range.mp hmem, ?_, hr.symm⟩
      simp at hnone
      exact hnone.2

theorem Inv.fork (h : s.Inv) (ht : t ≠ 0) (hT : s.task t = some T) (hgone : T.gone = false)
    {pid : Int} {nr : Nat} (hpos : 0 < pid ∧ pid < 2 ^ 31) (hnew : s.inUse pid = false) (hnr : nr < nrTasks)
    (hfree : s.task nr = none) :
    Procs.Inv { task := Function.update s.task nr (some (child T pid)), lastPid := pid } := by
  have hfam : Procs.family { task := Function.update s.task nr (some (child T pid)), lastPid := pid } =
      Function.update s.family nr (some ⟨pid, T.pid, false⟩) := by
    funext j
    by_cases hj : j = nr
    · subst hj
      simp [Procs.family, child, Proc.member, Proc.gone]
    · simp [Procs.family, hj]
  refine ⟨fun i U hU => ?_, ?_, fun i U hU hz => ?_, le_of_lt hpos.1, hpos.2⟩
  · by_cases hi : i = nr
    · exact hi ▸ hnr
    · exact h.bound i U ((Function.update_of_ne hi ..).symm.trans hU)
  · rw [hfam]
    refine h.family.born (family_eq hT) ht hgone (by simp [Procs.family, hfree]) fun j m hm heq => ?_
    obtain ⟨U, hU, rfl⟩ := family_some hm
    have huse := inUse_iff.mpr ⟨j, U, h.bound j U hU, hU, heq⟩
    rw [hnew] at huse
    cases huse
  · by_cases hi : i = nr
    · subst hi
      have hU' : child T pid = U := Option.some.inj ((Function.update_self i _ s.task).symm.trans hU)
      rw [← hU'] at hz
      cases hz
    · exact h.zombie i U ((Function.update_of_ne hi ..).symm.trans hU) hz

/-! ## `do_exit` -/

/-- The task after the loop: only its father may be another. -/
theorem loop_task {n : Nat} {pid : Int} (ht : t < n) (hT : s.task t = some T)
    (hfam : s'.family = fun j => if j < n then (s.family j).map (moved pid) else s.family j)
    (hrest : s'.rest = s.rest) :
    ∃ T', s'.task t = some T' ∧ T'.rest = T.rest ∧ T'.member = moved pid T.member := by
  have hfamt := congrFun hfam t
  rw [if_pos ht, family_eq hT, Option.map_some] at hfamt
  obtain ⟨T', hT', hmember⟩ := family_some hfamt
  obtain ⟨U, hU, hTrest⟩ := task_of_rest hrest hT
  cases hT'.symm.trans hU
  exact ⟨T', hT', hTrest, hmember⟩

/-- The task has left its family, and its children belong to task 1. -/
theorem Inv.orphaned (h : s.Inv) (hT : s.task t = some T) {T' : Proc} (code : Int)
    (hfam : s'.family = fun j => if j < nrTasks then (s.family j).map (moved T.pid) else s.family j)
    (hT' : s'.task t = some T') (hmember : T'.member = moved T.pid T.member) :
    (s'.modify t fun T => { T with phase := .exiting code }).family = s.family.orphan t T.pid := by
  rw [family_modify hT']
  funext j
  by_cases hj : j = t
  · subst hj
    have hpid : T'.pid = T.pid := congrArg Member.pid hmember
    have hfather : T'.father = if T.father = T.pid then 1 else T.father := congrArg Member.father hmember
    simp [Family.orphan, Procs.family, hT, Proc.member, Proc.gone, hpid, hfather]
  · rw [Function.update_of_ne hj, hfam]
    simp only [Family.orphan]
    by_cases hlt : j < nrTasks
    · rw [if_pos hlt]
      have hjt : (j == t) = false := by simpa using hj
      simp only [hjt, Bool.or_false]
      rfl
    · cases hU : s.task j with
      | none => simp [Procs.family, hU]
      | some U => exact absurd (h.bound j U hU) hlt

theorem gone_of_rest {U : Proc} (hrest : U.rest = T.rest) : U.gone = T.gone := by
  show Proc.gone U.rest = Proc.gone T.rest
  rw [hrest]

theorem Inv.exitStart (h : s.Inv) (ht₀ : t ≠ 0) (ht₁ : t ≠ 1) (hT : s.task t = some T) (code : Int) :
    (s.exitStart t T code).Inv ∧ (s.exitStart t T code).rest =
      Function.update s.rest t (some { T.rest with phase := .exiting code }) := by
  obtain ⟨hfam, hrest, hlast⟩ := reparent_loop (s := s) T.pid nrTasks
  generalize hs₁ : (List.range nrTasks).foldl (reparent T.pid) s = s₁ at hfam hrest hlast
  have hexit : s.exitStart t T code = s₁.modify t fun T => { T with phase := .exiting code } := by
    rw [← hs₁]
    rfl
  obtain ⟨T', hT', hTrest, hmember⟩ := loop_task (h.bound t T hT) hT hfam hrest
  have horphan := h.orphaned hT code hfam hT' hmember
  rw [hexit]
  refine ⟨⟨fun i U hU => ?_, ?_, fun i U hU hz => ?_, ?_⟩, ?_⟩
  · rw [modify_task hT'] at hU
    by_cases hi : i = t
    · exact hi ▸ h.bound t T hT
    · rw [Function.update_of_ne hi] at hU
      obtain ⟨U', hU', -⟩ := task_of_rest hrest.symm hU
      exact h.bound i U' hU'
  · rw [horphan]
    exact h.family.orphan (family_eq hT) ht₀ ht₁
  · rw [modify_task hT'] at hU
    by_cases hi : i = t
    · subst hi
      rw [Function.update_self] at hU
      cases hU
      rfl
    · rw [Function.update_of_ne hi] at hU
      obtain ⟨U', hU', hUrest⟩ := task_of_rest hrest.symm hU
      have hstate : U'.rest.state = U.rest.state := congrArg Proc.state hUrest
      rw [← gone_of_rest hUrest]
      exact h.zombie i U' hU' (hstate.trans hz)
  · show 0 ≤ s₁.lastPid ∧ s₁.lastPid < 2 ^ 31
    rw [hlast]
    exact h.lastPid
  · funext j
    by_cases hj : j = t
    · subst hj
      rw [← hTrest]
      simp [Procs.rest, modify_task hT', Proc.rest]
    · have hj' := congrFun hrest j
      simpa [Procs.rest, modify_task hT', hj] using hj'

/-- A father who is there is told. -/
theorem tellFather_eq {pid : Int} (hpid : pid ≠ 0)
    (h : ∃ i T, i < nrTasks ∧ s.task i = some T ∧ T.pid = pid) :
    ∃ i, s.tellFather t pid = .ok (.silent, s.sendSig i sigchld) := by
  unfold tellFather
  rw [if_pos hpid]
  cases hfind : (List.range nrTasks).find? fun i => (s.task i).any fun T => T.pid == pid with
  | some i => exact ⟨i, rfl⟩
  | none =>
    obtain ⟨i, T, hi, hT, hTpid⟩ := h
    have hnot := List.find?_eq_none.mp hfind i (List.mem_range.mpr hi)
    simp [hT, hTpid] at hnot

/-- The end of `do_exit`: the father is found. -/
theorem Inv.exitEnd (h : s.Inv) (hT : s.task t = some T) {code : Int}
    (hp : T.phase = .exiting code) :
    ∃ s₁ s₂, Alike s s₁ ∧ Alike (s₁.modify t fun T => { T with state := .zombie, exitCode := code }) s₂ ∧
      s.exitEnd t T code = .ok (.silent, s₂) ∧ s₂.Inv := by
  have hgone : T.gone = true := by simp [Proc.gone, hp]
  obtain ⟨ht₀, ht₁⟩ := h.family.stays (family_eq hT) hgone
  obtain ⟨hfather, j, m, hm, hpid, -⟩ := h.family.father t T.member (family_eq hT) ht₀ ht₁
  -- `kill_session` only sends signals
  obtain ⟨s₁, hs₁, halike⟩ : ∃ s₁, s₁ = (if T.leader then s.killSession T.session else s) ∧
      Alike s s₁ := by
    refine ⟨_, rfl, ?_⟩
    split
    · exact alike_killSession
    · exact .refl
  have hinv₁ := h.congr halike
  obtain ⟨T₁, hT₁, -, hmember₁⟩ := halike.symm.task hT
  have hinv₂ : (s₁.modify t fun T => { T with state := .zombie, exitCode := code }).Inv := by
    refine hinv₁.modify hT₁ rfl fun _ => ?_
    have hsame : T₁.gone = T.gone := (congrArg Member.gone hmember₁).symm
    rw [hsame, hgone]
  have hthere : ∃ i U, i < nrTasks ∧
      (s₁.modify t fun T => { T with state := .zombie, exitCode := code }).task i = some U ∧
        U.pid = T.father := by
    have hfam : (s₁.modify t fun T => { T with state := .zombie, exitCode := code }).family =
        s.family := by
      rw [family_modify hT₁]
      show Function.update s₁.family t (some T₁.member) = s.family
      rw [← family_eq hT₁, Function.update_eq_self, halike.family]
    obtain ⟨U, hU, hUm⟩ := family_some (hfam ▸ hm)
    have hpidU : U.pid = m.pid := congrArg Member.pid hUm
    exact ⟨j, U, hinv₂.bound j U hU, hU, hpidU.trans hpid⟩
  obtain ⟨i, htell⟩ := tellFather_eq (t := t) hfather hthere
  refine ⟨s₁, _, halike, alike_sendSig i sigchld, ?_, hinv₂.congr (alike_sendSig ..)⟩
  unfold Procs.exitEnd
  dsimp only
  rw [← hs₁]
  exact htell

/-! ## `sys_waitpid` -/

theorem scan_zombie {pid : Int} {options : BitVec 32} {n i : Nat} {flag : Bool} {z : Proc}
    (h : s.scan t T pid options n flag = .zombie i z) :
    s.task i = some z ∧ i ≠ t ∧ i ≠ 0 ∧ z.father = T.pid ∧ z.state = .zombie := by
  induction n generalizing flag with
  | zero => cases h
  | succ n ih =>
    simp only [scan] at h
    split at h
    · exact ih h
    · next u hu =>
      split at h
      · exact ih h
      · next hne =>
        split at h
        · exact ih h
        · next hfather =>
          split at h
          · exact ih h
          · split at h
            · split at h
              · exact ih h
              · cases h
            · next hz =>
              cases h
              exact ⟨hu, hne, Nat.succ_ne_zero n, not_not.mp hfather, hz⟩
            · exact ih h

/-- How `sys_waitpid` goes on: it returns or sleeps, or it has found a zombie child. -/
theorem waitScan_cases (s : Procs) (t : Nat) (T : Proc) (pid : Int) (options : BitVec 32) :
    (∃ o f, s.waitScan t T pid options = .ok (o, s.modify t f) ∧
      (o = .silent ∨ ∃ r st, o = .returned r st) ∧
      ((f = fun T => { T with phase := .user }) ∨
        f = fun T => { T with state := .interruptible, phase := .waiting pid options })) ∨
    ∃ i z, s.task i = some z ∧ i ≠ t ∧ i ≠ 0 ∧ z.father = T.pid ∧ z.state = .zombie ∧
      s.waitScan t T pid options =
        ((s.modify t (Proc.reap z)).release i).map fun s => (.released i z, s) := by
  unfold waitScan
  cases hscan : s.scan t T pid options (nrTasks - 1) false with
  | stopped r => exact .inl ⟨_, _, rfl, .inr ⟨_, _, rfl⟩, .inl rfl⟩
  | zombie i z =>
    obtain ⟨hz, hne, hi, hfather, hstate⟩ := scan_zombie hscan
    exact .inr ⟨i, z, hz, hne, hi, hfather, hstate, rfl⟩
  | none flag =>
    cases flag with
    | false => exact .inl ⟨_, _, rfl, .inr ⟨_, _, rfl⟩, .inl rfl⟩
    | true =>
      dsimp only
      split
      · exact .inl ⟨_, _, rfl, .inr ⟨_, _, rfl⟩, .inl rfl⟩
      · exact .inl ⟨_, _, rfl, .inl rfl, .inr rfl⟩

theorem release_eq {z : Proc} (hi : i ≠ 0) (hz : s.task i = some z) :
    s.release i = .ok { s with task := Function.update s.task i none } := by
  simp [release, hi, hz]

theorem Inv.release (h : s.Inv) {z : Proc} (hz : s.task i = some z) (hgone : z.gone = true) :
    Procs.Inv { s with task := Function.update s.task i none } := by
  have hback : ∀ {j U}, Function.update s.task i none j = some U → s.task j = some U := by
    intro j U hU
    by_cases hj : j = i
    · subst hj
      rw [Function.update_self] at hU
      cases hU
    · rwa [Function.update_of_ne hj] at hU
  refine ⟨fun j U hU => h.bound j U (hback hU), ?_, fun j U hU hs => h.zombie j U (hback hU) hs,
    h.lastPid⟩
  have hfam : Procs.family { s with task := Function.update s.task i none } =
      Function.update s.family i none := by
    funext j
    by_cases hj : j = i
    · subst hj
      simp [Procs.family]
    · simp [Procs.family, hj]
  rw [hfam]
  exact h.family.release (family_eq hz) hgone

end Procs

/-! ## The ledger -/

def ProcEvent.task : ProcEvent → Nat
  | .fork t _ => t
  | .exit t _ => t
  | .exitEnd t => t
  | .waitpid t _ _ => t
  | .woken t => t
  | .stored t => t
  | .other t => t

/-- The step belongs to `sys_waitpid`. -/
def ProcEvent.Waits : ProcEvent → Prop
  | .waitpid _ _ _ => True
  | .woken _ => True
  | _ => False

/-- What is known about a slot: the times of the children that its task has waited for, the pid and
the exit code that its call is about to return, and how often a task was made and released there. -/
structure Account where
  cutime : BitVec 32
  cstime : BitVec 32
  owed : Option (Int × Int)
  births : Nat
  releases : Nat

abbrev Ledger := Nat → Account

namespace Ledger

def onBirth (A : Account) : Account :=
  { A with cutime := 0, cstime := 0, owed := none, births := A.births + 1 }

def onRelease (A : Account) : Account :=
  { A with releases := A.releases + 1 }

/-- The father of `z` has released it. -/
def onReap (z : Proc) (A : Account) : Account :=
  { A with
    cutime := A.cutime + z.utime
    cstime := A.cstime + z.stime
    owed := some (z.pid, z.exitCode) }

def change (L : Ledger) (i : Nat) (f : Account → Account) : Ledger :=
  Function.update L i (f (L i))

def apply (L : Ledger) : ProcEvent × Outcome → Ledger
  | (_, .forked _ (some nr)) => L.change nr onBirth
  | (e, .released i z) => (L.change i onRelease).change e.task (onReap z)
  | (.stored t, _) => L.change t fun A => { A with owed := none }
  | (.exit t _, _) => L.change t fun A => { A with owed := none }
  | _ => L

end Ledger

namespace Procs

def occupied (s : Procs) (i : Nat) : Nat :=
  if (s.task i).isSome then 1 else 0

/-- The ledger of a state in which no call is in progress. -/
def ledger (s : Procs) : Ledger := fun i =>
  { cutime := ((s.task i).map Proc.cutime).getD 0
    cstime := ((s.task i).map Proc.cstime).getD 0
    owed := none
    births := s.occupied i
    releases := 0 }

/-- One account is right about the task of its slot. -/
structure Fits (T : Proc) (A : Account) : Prop where
  cutime : T.cutime = A.cutime
  cstime : T.cstime = A.cstime
  owed : ∀ flag code, T.phase = .reaped flag code ↔ A.owed = some (flag, code)

structure Books (s : Procs) (L : Ledger) : Prop where
  fits : ∀ i T, s.task i = some T → Fits T (L i)
  slots : ∀ i, (L i).releases + s.occupied i = (L i).births

variable {s s' : Procs} {i j t : Nat} {T : Proc} {f : Proc → Proc} {L : Ledger}

theorem Fits.congr {A : Account} {T' : Proc} (h : Fits T A) (hrest : T'.rest = T.rest) : Fits T' A := by
  have hcutime : T'.rest.cutime = T.rest.cutime := congrArg Proc.cutime hrest
  have hcstime : T'.rest.cstime = T.rest.cstime := congrArg Proc.cstime hrest
  have hphase : T'.rest.phase = T.rest.phase := congrArg Proc.phase hrest
  refine ⟨hcutime.trans h.cutime, hcstime.trans h.cstime, fun flag code => ?_⟩
  have hp : T'.phase = T.phase := hphase
  rw [hp]
  exact h.owed flag code

theorem Books.congr_rest (h : s.Books L) (hrest : s'.rest = s.rest) : s'.Books L := by
  have hoption : ∀ i, (s'.task i).map Proc.rest = (s.task i).map Proc.rest := congrFun hrest
  refine ⟨fun i T' hT' => ?_, fun i => ?_⟩
  · have hi := hoption i
    rw [hT', Option.map_some] at hi
    obtain ⟨T, hT, heq⟩ := Option.map_eq_some_iff.mp hi.symm
    exact (h.fits i T hT).congr heq.symm
  · have hsome : (s'.task i).isSome = (s.task i).isSome := by
      have hi := congrArg Option.isSome (hoption i)
      rwa [Option.isSome_map, Option.isSome_map] at hi
    have hslots := h.slots i
    rw [occupied] at hslots ⊢
    rw [hsome]
    exact hslots

/-- One task and its account change. -/
theorem Books.modify (h : s.Books L) (hT : s.task t = some T) {g : Account → Account}
    (hfits : Fits (f T) (g (L t))) (hcount : ∀ A, (g A).releases = A.releases ∧ (g A).births = A.births) :
    (s.modify t f).Books (L.change t g) := by
  refine ⟨fun i U hU => ?_, fun i => ?_⟩
  · rw [modify_task hT] at hU
    by_cases hi : i = t
    · subst hi
      rw [Function.update_self] at hU
      cases hU
      simpa [Ledger.change] using hfits
    · rw [Function.update_of_ne hi] at hU
      simpa [Ledger.change, hi] using h.fits i U hU
  · have hslots := h.slots i
    have hocc : (s.modify t f).occupied i = s.occupied i := by
      unfold occupied
      rw [modify_task hT]
      by_cases hi : i = t
      · subst hi
        simp [hT]
      · simp [hi]
    rw [hocc]
    by_cases hi : i = t
    · subst hi
      simpa [Ledger.change, hcount] using hslots
    · simpa [Ledger.change, hi] using hslots

/-- One task changes, and its account is still right. -/
theorem Books.same (h : s.Books L) (hT : s.task t = some T) (hfits : Fits (f T) (L t)) :
    (s.modify t f).Books L := by
  have hsame : L.change t id = L := by simp [Ledger.change]
  rw [← hsame]
  exact h.modify hT hfits fun _ => ⟨rfl, rfl⟩

theorem Books.birth (h : s.Books L) (hfree : s.task i = none) (hfits : Fits T (Ledger.onBirth (L i)))
    {pid : Int} : Books { task := Function.update s.task i (some T), lastPid := pid }
      (L.change i Ledger.onBirth) := by
  refine ⟨fun j U hU => ?_, fun j => ?_⟩
  · by_cases hj : j = i
    · subst hj
      have hU' : T = U := Option.some.inj ((Function.update_self j _ s.task).symm.trans hU)
      rw [← hU']
      simpa [Ledger.change] using hfits
    · have hU' := h.fits j U ((Function.update_of_ne hj ..).symm.trans hU)
      simpa [Ledger.change, hj] using hU'
  · have hslots := h.slots j
    by_cases hj : j = i
    · subst hj
      simp [occupied, hfree] at hslots
      simp [Ledger.change, Ledger.onBirth, occupied, hslots]
    · simpa [Ledger.change, occupied, hj] using hslots

theorem Books.released (h : s.Books L) {z : Proc} (hz : s.task i = some z) :
    Books { s with task := Function.update s.task i none } (L.change i Ledger.onRelease) := by
  refine ⟨fun j U hU => ?_, fun j => ?_⟩
  · by_cases hj : j = i
    · subst hj
      have hU' : none = some U := (Function.update_self j _ s.task).symm.trans hU
      cases hU'
    · have hU' := h.fits j U ((Function.update_of_ne hj ..).symm.trans hU)
      simpa [Ledger.change, hj] using hU'
  · have hslots := h.slots j
    by_cases hj : j = i
    · subst hj
      simp [occupied, hz] at hslots
      simp [Ledger.change, Ledger.onRelease, occupied, hslots]
    · simpa [Ledger.change, occupied, hj] using hslots

/-! ## Steps -/

/-- What is said about a step that has returned. -/
structure Sound (s : Procs) (L : Ledger) (e : ProcEvent) (o : Outcome) (s' : Procs) : Prop where
  inv : s'.Inv
  books : s'.Books (L.apply (e, o))
  father : o ≠ .noFather
  released : ∀ i z, o = .released i z → e.Waits ∧ s.task i = some z ∧ z.state = .zombie ∧
    (∃ T, s.task e.task = some T ∧ z.father = T.pid) ∧ s'.task i = none
  returned : ∀ t, e = .stored t → ∃ flag code, (L t).owed = some (flag, code) ∧
    o = .returned flag (some code)

/-- A step that releases nothing and does not return from `release`. -/
theorem sound_of {e : ProcEvent} {o : Outcome} (hinv : s'.Inv) (hbooks : s'.Books (L.apply (e, o)))
    (ho : o = .silent ∨ (∃ ret st, o = .returned ret st) ∨ ∃ ret nr, o = .forked ret nr)
    (he : ∀ t, e ≠ .stored t) : Sound s L e o s' := by
  refine ⟨hinv, hbooks, ?_, fun i z h => ?_, fun t h => absurd h (he t)⟩
  · rcases ho with rfl | ⟨_, _, rfl⟩ | ⟨_, _, rfl⟩ <;> exact fun h => by cases h
  · rcases ho with rfl | ⟨_, _, rfl⟩ | ⟨_, _, rfl⟩ <;> cases h

theorem not_gone (hp : ∀ code, T.phase ≠ .exiting code) : T.gone = false := by
  cases hphase : T.phase with
  | exiting code => exact absurd hphase (hp code)
  | _ => simp [Proc.gone, hphase]

theorem running_ne (hrun : T.state = .running) : T.state ≠ .zombie := by
  intro hz
  rw [hrun] at hz
  cases hz

/-- A task outside `do_exit` stays there. -/
theorem Inv.goesOn (h : s.Inv) (hT : s.task t = some T) (hgone : T.gone = false)
    (hmember : (f T).member = ⟨T.pid, T.father, false⟩) (hstate : (f T).state ≠ .zombie) :
    (s.modify t f).Inv := by
  have hsame : (f T).member = T.member := by
    rw [hmember, Proc.member, hgone]
  exact h.modify hT hsame fun hz => absurd hz hstate

/-- The task owes nothing, before and after. -/
theorem Fits.kept {A : Account} {T' : Proc} (h : Fits T A) (hp : ∀ flag code, T.phase ≠ .reaped flag code)
    (hcutime : T'.cutime = T.cutime) (hcstime : T'.cstime = T.cstime)
    (hp' : ∀ flag code, T'.phase ≠ .reaped flag code) : Fits T' A := by
  refine ⟨hcutime.trans h.cutime, hcstime.trans h.cstime, fun flag code => ?_⟩
  exact iff_of_false (hp' flag code) fun howed => hp flag code ((h.owed flag code).mpr howed)

/-- What the task owed is forgotten. -/
theorem Fits.settled {A : Account} {T' : Proc} (h : Fits T A) (hcutime : T'.cutime = T.cutime)
    (hcstime : T'.cstime = T.cstime) (hp' : ∀ flag code, T'.phase ≠ .reaped flag code) :
    Fits T' { A with owed := none } := by
  refine ⟨hcutime.trans h.cutime, hcstime.trans h.cstime, fun flag code => ?_⟩
  exact iff_of_false (hp' flag code) fun howed => nomatch howed

/-! ### `sys_waitpid` -/

theorem Books.reap (h : s.Books L) (hT : s.task t = some T) (z : Proc) :
    (s.modify t (Proc.reap z)).Books (L.change t (Ledger.onReap z)) := by
  have hfits := h.fits t T hT
  refine h.modify hT ⟨?_, ?_, fun flag code => ?_⟩ fun _ => ⟨rfl, rfl⟩
  · simp [Ledger.onReap, Proc.reap, hfits.cutime]
  · simp [Ledger.onReap, Proc.reap, hfits.cstime]
  · simp [Ledger.onReap, Proc.reap]

theorem change_comm (hne : i ≠ j) (g g' : Account → Account) :
    (L.change i g).change j g' = (L.change j g').change i g := by
  funext k
  by_cases hk : k = j
  · subst hk
    simp [Ledger.change, Ne.symm hne]
  · by_cases hki : k = i
    · subst hki
      simp [Ledger.change, hk]
    · simp [Ledger.change, hk, hki]

/-- A zombie child is found: its times go to the father, and its slot is free. -/
theorem Inv.reap {e : ProcEvent} {z : Proc} (hinv : s.Inv) (hbooks : s.Books L) (ht : e.task = t)
    (hT : s.task t = some T) (hgone : T.gone = false) (hrun : T.state = .running)
    (hz : s.task i = some z) (hne : i ≠ t) (hi : i ≠ 0) (hstate : z.state = .zombie) :
    ∃ s', (s.modify t (Proc.reap z)).release i = .ok s' ∧ s'.Inv ∧
      s'.Books (L.apply (e, .released i z)) ∧ s'.task i = none := by
  have hz' : (s.modify t (Proc.reap z)).task i = some z := by
    rw [modify_task hT, Function.update_of_ne hne, hz]
  have hinv' : (s.modify t (Proc.reap z)).Inv := hinv.goesOn hT hgone rfl (running_ne hrun)
  refine ⟨_, release_eq hi hz', hinv'.release hz' (hinv.zombie i z hz hstate), ?_,
    Function.update_self ..⟩
  have happly : L.apply (e, .released i z) =
      (L.change t (Ledger.onReap z)).change i Ledger.onRelease := by
    rw [← change_comm hne, ← ht]
    rfl
  rw [happly]
  exact (hbooks.reap hT z).released hz'

/-- `sys_waitpid` from the label `repeat` on. -/
theorem sound_waitScan {s₀ : Procs} {e : ProcEvent} {pid : Int} {options : BitVec 32} {T₀ : Proc}
    (hinv : s.Inv) (hbooks : s.Books L) (he : e.Waits) (ht : e.task = t) (hT : s.task t = some T)
    (hT₀ : s₀.task t = some T₀) (hp : ∀ code, T.phase ≠ .exiting code)
    (hp' : ∀ flag code, T.phase ≠ .reaped flag code) (hrun : T.state = .running)
    (hsame : ∀ i, i ≠ t → s.task i = s₀.task i) :
    ∃ o s', s.waitScan t T₀ pid options = .ok (o, s') ∧ Sound s₀ L e o s' := by
  have hgone := not_gone hp
  have hfits := hbooks.fits t T hT
  have hstored : ∀ t, e ≠ .stored t := by
    rintro t rfl
    exact he
  rcases waitScan_cases s t T₀ pid options with
    ⟨o, f, heq, ho, hf⟩ | ⟨i, z, hz, hne, hi, hfather, hstate, heq⟩
  · have happly : L.apply (e, o) = L := by
      rcases ho with rfl | ⟨_, _, rfl⟩ <;> cases e <;> first | rfl | exact he.elim
    refine ⟨o, _, heq, sound_of ?_ ?_ (ho.imp_right .inl) hstored⟩
    · rcases hf with rfl | rfl
      · exact hinv.goesOn hT hgone rfl (running_ne hrun)
      · exact hinv.goesOn hT hgone rfl fun hz => nomatch hz
    · rw [happly]
      rcases hf with rfl | rfl
      · exact hbooks.same hT (hfits.kept hp' rfl rfl fun _ _ hp => nomatch hp)
      · exact hbooks.same hT (hfits.kept hp' rfl rfl fun _ _ hp => nomatch hp)
  · obtain ⟨s', hrelease, hinv', hbooks', hfree⟩ :=
      hinv.reap hbooks ht hT hgone hrun hz hne hi hstate
    rw [hrelease] at heq
    refine ⟨_, _, heq, hinv', hbooks', fun h => (by cases h), ?_, fun t h => absurd h (hstored t)⟩
    rintro i' z' ⟨⟩
    refine ⟨he, (hsame i hne).symm.trans hz, hstate, ⟨T₀, ?_, hfather⟩, hfree⟩
    rw [ht]
    exact hT₀

/-- `sys_waitpid` after its sleep: `SIGCHLD` is taken, and another signal ends the call. -/
theorem sound_woken {pid : Int} {options : BitVec 32} (hinv : s.Inv) (hbooks : s.Books L)
    (hT : s.task t = some T) (hrun : T.state = .running) (hp : T.phase = .waiting pid options) :
    ∃ o s', s.waitWoken t T pid options = .ok (o, s') ∧ Sound s L (.woken t) o s' := by
  unfold waitWoken
  dsimp only
  generalize T.signal &&& ~~~(1#32 <<< (sigchld - 1)) = signal
  have hquiet : Alike s (s.modify t fun T => { T with signal }) :=
    alike_modify (fun _ => rfl) fun _ => rfl
  have hinv₁ := hinv.congr hquiet
  have hbooks₁ := hbooks.congr_rest hquiet.rest
  have hT₁ : (s.modify t fun T => { T with signal }).task t = some { T with signal } := by
    rw [modify_task hT, Function.update_self]
  have hexiting : ∀ code, T.phase ≠ .exiting code := by
    intro code
    rw [hp]
    exact fun h => nomatch h
  have hreaped : ∀ flag code, T.phase ≠ .reaped flag code := by
    intro flag code
    rw [hp]
    exact fun h => nomatch h
  split
  · refine sound_waitScan hinv₁ hbooks₁ trivial rfl hT₁ hT hexiting hreaped hrun fun i hi => ?_
    rw [modify_task hT, Function.update_of_ne hi]
  · have hgone : Proc.gone { T with signal } = false := not_gone hexiting
    refine ⟨_, _, rfl, sound_of ?_ ?_ (.inr (.inl ⟨_, _, rfl⟩)) fun _ h => nomatch h⟩
    · exact hinv₁.goesOn hT₁ hgone rfl (running_ne hrun)
    · exact hbooks₁.same hT₁ ((hbooks₁.fits t _ hT₁).kept hreaped rfl rfl fun _ _ hp => nomatch hp)

/-- `sys_waitpid` after `release`. -/
theorem sound_stored {flag code : Int} (hinv : s.Inv) (hbooks : s.Books L) (hT : s.task t = some T)
    (hrun : T.state = .running) (hp : T.phase = .reaped flag code) :
    Sound s L (.stored t) (s.waitStored t flag code).1 (s.waitStored t flag code).2 := by
  have hfits := hbooks.fits t T hT
  have hgone : T.gone = false := by simp [Proc.gone, hp]
  refine ⟨?_, ?_, (fun h => nomatch h), (fun _ _ h => nomatch h), ?_⟩
  · exact hinv.goesOn hT hgone rfl (running_ne hrun)
  · show (s.modify t fun T => { T with phase := .user }).Books (L.change t fun A => { A with owed := none })
    exact hbooks.modify hT (hfits.settled rfl rfl fun _ _ hp => nomatch hp) fun _ => ⟨rfl, rfl⟩
  · rintro t' ⟨⟩
    exact ⟨flag, code, (hfits.owed flag code).mp hp, rfl⟩

/-! ### `fork` and `do_exit` -/

theorem Inv.of_lastPid (h : s.Inv) {pid : Int} (hpos : 0 < pid ∧ pid < 2 ^ 31) : Inv { s with lastPid := pid } :=
  ⟨h.bound, h.family, h.zombie, le_of_lt hpos.1, hpos.2⟩

theorem Inv.zombie_gone (h : s.Inv) (hT : s.task t = some T) (hgone : T.gone = false) :
    T.state ≠ .zombie := by
  intro hz
  rw [h.zombie t T hT hz] at hgone
  cases hgone

theorem sound_fork {memory : Bool} {r : Outcome × Procs} (hinv : s.Inv) (hbooks : s.Books L) (ht : t ≠ 0)
    (hT : s.task t = some T) (hp : T.phase = .user) (hr : s.sysFork T memory = some r) :
    Sound s L (.fork t memory) r.1 r.2 := by
  obtain ⟨pid, hpos, hnew, rfl | ⟨nr, hnr, hfree, rfl⟩⟩ := sysFork_cases hinv.lastPid.1 hr
  · exact sound_of (hinv.of_lastPid hpos) ⟨hbooks.fits, hbooks.slots⟩ (.inr (.inr ⟨_, _, rfl⟩))
      fun _ h => nomatch h
  · have hgone : T.gone = false := by simp [Proc.gone, hp]
    refine sound_of (hinv.fork ht hT hgone hpos hnew hnr hfree) ?_ (.inr (.inr ⟨_, _, rfl⟩))
      fun _ h => nomatch h
    -- the child starts with an account of its own
    refine hbooks.birth hfree ⟨rfl, rfl, fun flag code => ?_⟩
    exact iff_of_false (fun h => nomatch h) fun h => nomatch h

theorem sound_exitStart {code : Int} (hinv : s.Inv) (hbooks : s.Books L) (ht₀ : t ≠ 0) (ht₁ : t ≠ 1)
    (hT : s.task t = some T) : Sound s L (.exit t code) .silent (s.exitStart t T code) := by
  obtain ⟨hinv', hrest⟩ := hinv.exitStart ht₀ ht₁ hT code
  refine sound_of hinv' ?_ (.inl rfl) fun _ h => nomatch h
  have hfits := hbooks.fits t T hT
  have hexiting : (s.modify t fun T => { T with phase := .exiting code }).Books
      (L.change t fun A => { A with owed := none }) :=
    hbooks.modify hT (hfits.settled rfl rfl fun _ _ hp => nomatch hp) fun _ => ⟨rfl, rfl⟩
  -- the first loop changes fathers and signals only
  refine hexiting.congr_rest ?_
  rw [hrest]
  funext j
  by_cases hj : j = t
  · subst hj
    simp [Procs.rest, modify_task hT, Proc.rest]
  · simp [Procs.rest, modify_task hT, hj]

theorem sound_exitEnd {code : Int} (hinv : s.Inv) (hbooks : s.Books L) (hT : s.task t = some T)
    (hp : T.phase = .exiting code) :
    ∃ o s', s.exitEnd t T code = .ok (o, s') ∧ Sound s L (.exitEnd t) o s' := by
  obtain ⟨s₁, s₂, h₁, h₂, heq, hinv'⟩ := hinv.exitEnd hT hp
  refine ⟨_, _, heq, sound_of hinv' ?_ (.inl rfl) fun _ h => nomatch h⟩
  obtain ⟨T₁, hT₁, -, -⟩ := h₁.symm.task hT
  have hbooks₁ := hbooks.congr_rest h₁.rest
  have hfits := hbooks₁.fits t T₁ hT₁
  have hzombie : (s₁.modify t fun T => { T with state := .zombie, exitCode := code }).Books L :=
    hbooks₁.same hT₁ ⟨hfits.cutime, hfits.cstime, hfits.owed⟩
  exact hzombie.congr_rest h₂.rest

/-- A step. -/
theorem Step.sound {e : ProcEvent} {r : Except String (Outcome × Procs)} (h : Step s e r)
    (hinv : s.Inv) (hbooks : s.Books L) (he : ∀ code, e ≠ .exit 1 code) :
    ∃ o s', r = .ok (o, s') ∧ Sound s L e o s' := by
  cases h with
  | @fork t T memory r ht hT hrun hp hr =>
    exact ⟨_, _, rfl, sound_fork hinv hbooks ht hT hp hr⟩
  | @exit t T code ht hT hrun hp =>
    have ht₁ : t ≠ 1 := by
      rintro rfl
      exact he code rfl
    exact ⟨_, _, rfl, sound_exitStart hinv hbooks ht ht₁ hT⟩
  | @exitEnd t T code hT hrun hp => exact sound_exitEnd hinv hbooks hT hp
  | @waitpid t T pid options ht hT hrun hp =>
    exact sound_waitScan hinv hbooks trivial rfl hT hT (fun code h => by rw [hp] at h; cases h)
      (fun flag code h => by rw [hp] at h; cases h) hrun fun _ _ => rfl
  | @woken t T pid options hT hrun hp => exact sound_woken hinv hbooks hT hrun hp
  | @stored t T flag code hT hrun hp => exact ⟨_, _, rfl, sound_stored hinv hbooks hT hrun hp⟩
  | @other t T T' hT hzombie hsame =>
    obtain ⟨hpid, hfather, -, hcutime, hcstime, hphase⟩ := hsame
    have hfits := hbooks.fits t T hT
    refine ⟨_, _, rfl, sound_of (hinv.modify hT ?_ fun hz => hinv.zombie t T hT (hzombie.mp hz))
      (hbooks.same hT ⟨hcutime.trans hfits.cutime, hcstime.trans hfits.cstime, fun flag code => ?_⟩)
      (.inl rfl) fun _ h => nomatch h⟩
    · simp [Proc.member, Proc.gone, hpid, hfather, hphase]
    · rw [hphase]
      exact hfits.owed flag code

/-! ## Runs -/

/-- The start: tasks 0 and 1, outside all calls. -/
structure Start (s : Procs) : Prop where
  idle : ∃ T, s.task 0 = some T ∧ T.pid = 0 ∧ T.state ≠ .zombie ∧ T.phase = .user
  init : ∃ T, s.task 1 = some T ∧ T.pid = 1 ∧ T.state ≠ .zombie ∧ T.phase = .user
  others : ∀ i, i ≠ 0 → i ≠ 1 → s.task i = none
  lastPid : 0 ≤ s.lastPid ∧ s.lastPid < 2 ^ 31

theorem Start.inv (h : s.Start) : s.Inv := by
  obtain ⟨T₀, hT₀, hpid₀, hz₀, hp₀⟩ := h.idle
  obtain ⟨T₁, hT₁, hpid₁, hz₁, hp₁⟩ := h.init
  have hcases : ∀ i T, s.task i = some T → (i = 0 ∧ T = T₀) ∨ (i = 1 ∧ T = T₁) := by
    intro i T hT
    by_cases hi₀ : i = 0
    · subst hi₀
      exact .inl ⟨rfl, Option.some.inj (hT.symm.trans hT₀)⟩
    · by_cases hi₁ : i = 1
      · subst hi₁
        exact .inr ⟨rfl, Option.some.inj (hT.symm.trans hT₁)⟩
      · rw [h.others i hi₀ hi₁] at hT
        cases hT
  refine ⟨fun i T hT => ?_, ⟨⟨T₀.member, family_eq hT₀, hpid₀, ?_⟩, ⟨T₁.member, family_eq hT₁, hpid₁, ?_⟩,
    fun i j m n hm hn heq => ?_, fun i m hm hi₀ hi₁ => ?_⟩, fun i T hT hz => ?_, h.lastPid⟩
  · rcases hcases i T hT with ⟨rfl, -⟩ | ⟨rfl, -⟩ <;> decide
  · exact not_gone fun code hp => by rw [hp₀] at hp; cases hp
  · exact not_gone fun code hp => by rw [hp₁] at hp; cases hp
  · obtain ⟨T, hT, rfl⟩ := family_some hm
    obtain ⟨U, hU, rfl⟩ := family_some hn
    have heq' : T.pid = U.pid := heq
    rcases hcases i T hT with ⟨rfl, rfl⟩ | ⟨rfl, rfl⟩ <;>
      rcases hcases j U hU with ⟨rfl, rfl⟩ | ⟨rfl, rfl⟩ <;> first | rfl | omega
  · obtain ⟨T, hT, rfl⟩ := family_some hm
    rcases hcases i T hT with ⟨rfl, -⟩ | ⟨rfl, -⟩
    · exact absurd rfl hi₀
    · exact absurd rfl hi₁
  · rcases hcases i T hT with ⟨-, rfl⟩ | ⟨-, rfl⟩
    · exact absurd hz hz₀
    · exact absurd hz hz₁

theorem Start.books (h : s.Start) : s.Books s.ledger := by
  obtain ⟨T₀, hT₀, -, -, hp₀⟩ := h.idle
  obtain ⟨T₁, hT₁, -, -, hp₁⟩ := h.init
  refine ⟨fun i T hT => ⟨by simp [ledger, hT], by simp [ledger, hT], fun flag code => ?_⟩,
    fun i => Nat.zero_add _⟩
  have hp : T.phase = .user := by
    by_cases hi₀ : i = 0
    · subst hi₀
      cases hT.symm.trans hT₀
      exact hp₀
    · by_cases hi₁ : i = 1
      · subst hi₁
        cases hT.symm.trans hT₁
        exact hp₁
      · rw [h.others i hi₀ hi₁] at hT
        cases hT
  rw [hp]
  exact iff_of_false (fun h => by cases h) fun h => by cases h

/-- The steps of a run in which task 1 does not exit, with what they report. -/
def Goes (s : Procs) (l : ProcEvent × Outcome) (s' : Procs) : Prop :=
  Step s l.1 (.ok (l.2, s')) ∧ ∀ code, l.1 ≠ .exit 1 code

theorem Start.run {ls : List (ProcEvent × Outcome)} (h : s.Start) (hrun : Lib.Run Goes s ls s') :
    s'.Inv ∧ s'.Books (ls.foldl Ledger.apply s.ledger) := by
  refine Lib.Run.refine (R := fun s L => s.Inv ∧ s.Books L) ?_ ⟨h.inv, h.books⟩ hrun
  rintro s ⟨e, o⟩ s' L ⟨hinv, hbooks⟩ ⟨hstep, he⟩
  obtain ⟨o', s₁, heq, hsound⟩ := hstep.sound hinv hbooks he
  cases heq
  exact ⟨hsound.inv, hsound.books⟩

/-- In every run in which task 1 does not exit: the father of each task is there and is no zombie;
each slot has been released as often as a task was made in it, but for the one that is there; every
task has got the times of exactly the children it has released; and `find_empty_process` ends. The
next step does not panic and finds a father. If it releases a slot, it is a step of `sys_waitpid` of
the father of the zombie that is there; and if it returns from `release`, it returns the pid and the
exit code of that zombie. -/
theorem children_reaped {ls : List (ProcEvent × Outcome)} (hstart : s.Start)
    (hrun : Lib.Run Goes s ls s') :
    (∀ i T, s'.task i = some T → i ≠ 0 → i ≠ 1 →
      ∃ j F, s'.task j = some F ∧ F.pid = T.father ∧ F.state ≠ .zombie) ∧
    s'.Books (ls.foldl Ledger.apply s.ledger) ∧ s'.findEmptyProcess.isSome = true ∧
    ∀ e r, Step s' e r → (∀ code, e ≠ .exit 1 code) → ∃ o s'', r = .ok (o, s'') ∧ o ≠ .noFather ∧
      (∀ i z, o = .released i z → e.Waits ∧ s'.task i = some z ∧ z.state = .zombie ∧
        (∃ T, s'.task e.task = some T ∧ z.father = T.pid) ∧ s''.task i = none) ∧
      ∀ t, e = .stored t → ∃ flag code,
        (ls.foldl Ledger.apply s.ledger t).owed = some (flag, code) ∧ o = .returned flag (some code) := by
  obtain ⟨hinv, hbooks⟩ := hstart.run hrun
  refine ⟨fun i T hT hi₀ hi₁ => ?_, hbooks, findEmptyProcess_isSome hinv.lastPid.1 hinv.lastPid.2,
    fun e r hstep he => ?_⟩
  · obtain ⟨-, j, m, hm, hpid, hgone⟩ := hinv.family.father i T.member (family_eq hT) hi₀ hi₁
    obtain ⟨F, hF, rfl⟩ := family_some hm
    exact ⟨j, F, hF, hpid, hinv.zombie_gone hF hgone⟩
  · obtain ⟨o, s'', heq, hsound⟩ := hstep.sound hinv hbooks he
    exact ⟨o, s'', heq, hsound.father, hsound.released, hsound.returned⟩

theorem Step.cast {e : ProcEvent} {r r' : Except String (Outcome × Procs)} (h : Step s e r)
    (hr : r = r') : Step s e r' :=
  hr ▸ h

/-- Tasks 0 and 1. -/
def twoTasks : Procs where
  task i :=
    if i = 0 then some ⟨.running, 0, 0, 0, -1, 0, 0, false, 0, 0, 0, 0, .user⟩
    else if i = 1 then some ⟨.running, 0, 0, 1, 0, 0, 0, false, 0, 0, 0, 0, .user⟩
    else none
  lastPid := 1

theorem twoTasks_start : twoTasks.Start := by
  refine ⟨⟨_, rfl, rfl, by decide, rfl⟩, ⟨_, rfl, rfl, by decide, rfl⟩, fun i hi₀ hi₁ => ?_, by decide⟩
  simp [twoTasks, hi₀, hi₁]

/-- Task 1 forks; the child exits with code 0x100; and `waitpid` returns its pid and code. -/
theorem children_reaped_fork : ∃ ls s flag code, Lib.Run Goes twoTasks ls s ∧
    (ls.foldl Ledger.apply twoTasks.ledger 1).owed = some (flag, code) ∧ flag = 2 ∧ code = 0x100 := by
  obtain ⟨o₁, s₁, h₁, o₂, s₂, h₂, o₃, s₃, h₃, o₄, s₄, h₄, r, h₅, hr⟩ :
      ∃ o₁ s₁, Step twoTasks (.fork 1 true) (.ok (o₁, s₁)) ∧
      ∃ o₂ s₂, Step s₁ (.exit 2 0x100) (.ok (o₂, s₂)) ∧
      ∃ o₃ s₃, Step s₂ (.exitEnd 2) (.ok (o₃, s₃)) ∧
      ∃ o₄ s₄, Step s₃ (.waitpid 1 (-1) 0) (.ok (o₄, s₄)) ∧
      ∃ r, Step s₄ (.stored 1) (.ok r) ∧ r.1 = .returned 2 (some 0x100) := by
    refine ⟨_, _, .cast (.fork (by decide) rfl rfl rfl rfl) rfl,
      _, _, .cast (.exit (by decide) rfl rfl (.inl rfl)) rfl, _, _, .cast (.exitEnd rfl rfl rfl) rfl,
      _, _, .cast (.waitpid (by decide) rfl rfl rfl) rfl, _, .cast (.stored rfl rfl rfl) rfl, rfl⟩
  have g₁ : Goes twoTasks (.fork 1 true, o₁) s₁ := ⟨h₁, by simp⟩
  have g₂ : Goes s₁ (.exit 2 0x100, o₂) s₂ := ⟨h₂, by simp⟩
  have g₃ : Goes s₂ (.exitEnd 2, o₃) s₃ := ⟨h₃, by simp⟩
  have g₄ : Goes s₃ (.waitpid 1 (-1) 0, o₄) s₄ := ⟨h₄, by simp⟩
  have hrun := Lib.Run.snoc (Lib.Run.snoc (Lib.Run.snoc (Lib.Run.snoc Lib.Run.nil g₁) g₂) g₃) g₄
  obtain ⟨-, -, -, hnext⟩ := children_reaped twoTasks_start hrun
  obtain ⟨o, s₅, heq, -, -, hstored⟩ := hnext _ _ h₅ (by simp)
  obtain ⟨flag, code, howed, ho⟩ := hstored 1 rfl
  cases heq
  rw [show o = Outcome.returned 2 (some 0x100) from hr] at ho
  cases ho
  exact ⟨_, s₄, 2, 0x100, hrun, howed, rfl, rfl⟩

end Procs

end Linux011.Kernel
