import Mathlib.Logic.Function.Basic
import Mathlib.Tactic.Common

/-!
# Families

What `fork`, `exit` and `wait` are for: every task but the first two has a father who is there and can
wait for it. A member that has begun to exit is `gone`: it is nobody's father any more.
-/

namespace Linux011.Kernel

structure Member where
  pid : Int
  father : Int
  gone : Bool

abbrev Family := Nat → Option Member

namespace Family

/-- Slots 0 and 1 have the tasks that stay; pids are different; and fathers are there. -/
structure Ok (F : Family) : Prop where
  idle : ∃ m, F 0 = some m ∧ m.pid = 0 ∧ m.gone = false
  init : ∃ m, F 1 = some m ∧ m.pid = 1 ∧ m.gone = false
  unique : ∀ i j m n, F i = some m → F j = some n → m.pid = n.pid → i = j
  father : ∀ i m, F i = some m → i ≠ 0 → i ≠ 1 →
    m.father ≠ 0 ∧ ∃ j f, F j = some f ∧ f.pid = m.father ∧ f.gone = false

/-- The task `t` begins to exit: its children are those of task 1. -/
def orphan (F : Family) (t : Nat) (pid : Int) : Family := fun i =>
  (F i).map fun m => { m with
    father := if m.father = pid then 1 else m.father
    gone := m.gone || i == t }

section

variable {F : Family} {i j t nr : Nat} {m n p : Member} {pid : Int}

theorem Ok.stays (h : F.Ok) (hm : F i = some m) (hgone : m.gone = true) : i ≠ 0 ∧ i ≠ 1 := by
  obtain ⟨m₀, h₀, -, hg₀⟩ := h.idle
  obtain ⟨m₁, h₁, -, hg₁⟩ := h.init
  constructor
  · rintro rfl
    cases hm.symm.trans h₀
    rw [hg₀] at hgone
    cases hgone
  · rintro rfl
    cases hm.symm.trans h₁
    rw [hg₁] at hgone
    cases hgone

/-- Only task 0 has pid 0. -/
theorem Ok.pid_ne_zero (h : F.Ok) (hm : F i = some m) (hi : i ≠ 0) : m.pid ≠ 0 := by
  obtain ⟨m₀, h₀, hpid, -⟩ := h.idle
  exact fun hzero => hi (h.unique i 0 m m₀ hm h₀ (hzero.trans hpid.symm))

theorem Ok.born (h : F.Ok) (hp : F i = some p) (hi : i ≠ 0) (hgone : p.gone = false)
    (hfree : F nr = none) (hnew : ∀ j m, F j = some m → m.pid ≠ pid) :
    Ok (Function.update F nr (some ⟨pid, p.pid, false⟩)) := by
  have hkeep : ∀ {j m}, F j = some m → Function.update F nr (some ⟨pid, p.pid, false⟩) j = some m := by
    intro j m hm
    have hne : j ≠ nr := by
      rintro rfl
      rw [hfree] at hm
      cases hm
    rw [Function.update_of_ne hne, hm]
  have hcases : ∀ {j m}, Function.update F nr (some ⟨pid, p.pid, false⟩) j = some m →
      (j = nr ∧ m = ⟨pid, p.pid, false⟩) ∨ F j = some m := by
    intro j m hm
    by_cases hj : j = nr
    · subst hj
      rw [Function.update_self] at hm
      exact .inl ⟨rfl, (Option.some.inj hm).symm⟩
    · rw [Function.update_of_ne hj] at hm
      exact .inr hm
  obtain ⟨m₀, h₀, hm₀⟩ := h.idle
  obtain ⟨m₁, h₁, hm₁⟩ := h.init
  refine ⟨⟨m₀, hkeep h₀, hm₀⟩, ⟨m₁, hkeep h₁, hm₁⟩, fun j k m n hm hn heq => ?_,
    fun j m hm hj₀ hj₁ => ?_⟩
  · rcases hcases hm with ⟨rfl, rfl⟩ | hold
    · rcases hcases hn with ⟨rfl, -⟩ | hold'
      · rfl
      · exact absurd heq.symm (hnew k n hold')
    · rcases hcases hn with ⟨rfl, rfl⟩ | hold'
      · exact absurd heq (hnew j m hold)
      · exact h.unique j k m n hold hold' heq
  · rcases hcases hm with ⟨rfl, rfl⟩ | hm
    · exact ⟨h.pid_ne_zero hp hi, i, p, hkeep hp, rfl, hgone⟩
    · obtain ⟨hne, k, f, hf, hpid, hfg⟩ := h.father j m hm hj₀ hj₁
      exact ⟨hne, k, f, hkeep hf, hpid, hfg⟩

theorem Ok.orphan (h : F.Ok) (hm : F t = some m) (ht₀ : t ≠ 0) (ht₁ : t ≠ 1) :
    (F.orphan t m.pid).Ok := by
  have hmap : ∀ {j n}, F j = some n → F.orphan t m.pid j = some { n with
      father := if n.father = m.pid then 1 else n.father
      gone := n.gone || j == t } := by
    intro j n hn
    simp [Family.orphan, hn]
  have hinv : ∀ {j n}, F.orphan t m.pid j = some n → ∃ n', F j = some n' ∧ n = { n' with
      father := if n'.father = m.pid then 1 else n'.father
      gone := n'.gone || j == t } := by
    intro j n hn
    obtain ⟨n', hn', heq⟩ := Option.map_eq_some_iff.mp hn
    exact ⟨n', hn', heq.symm⟩
  obtain ⟨m₀, h₀, hpid₀, hg₀⟩ := h.idle
  obtain ⟨m₁, h₁, hpid₁, hg₁⟩ := h.init
  refine ⟨⟨_, hmap h₀, hpid₀, by simp [hg₀, Ne.symm ht₀]⟩,
    ⟨_, hmap h₁, hpid₁, by simp [hg₁, Ne.symm ht₁]⟩, fun j k n q hn hq heq => ?_,
    fun j n hn hj₀ hj₁ => ?_⟩
  · obtain ⟨n', hn', rfl⟩ := hinv hn
    obtain ⟨q', hq', rfl⟩ := hinv hq
    exact h.unique j k n' q' hn' hq' heq
  · obtain ⟨n', hn', rfl⟩ := hinv hn
    obtain ⟨hne, k, f, hf, hpid, hfg⟩ := h.father j n' hn' hj₀ hj₁
    by_cases hchild : n'.father = m.pid
    · -- a child of `t` is now one of task 1
      refine ⟨by simp [hchild], 1, _, hmap h₁, ?_, ?_⟩
      · simp [hchild, hpid₁]
      · simp [hg₁, Ne.symm ht₁]
    · have hkt : k ≠ t := by
        rintro rfl
        cases hm.symm.trans hf
        exact hchild hpid.symm
      refine ⟨by simpa [hchild] using hne, k, _, hmap hf, ?_, ?_⟩
      · simp [hchild, hpid]
      · simp [hfg, hkt]

/-- A gone member is nobody's father, and can be taken away. -/
theorem Ok.release (h : F.Ok) (hm : F i = some m) (hgone : m.gone = true) :
    Ok (Function.update F i none) := by
  obtain ⟨hi₀, hi₁⟩ := h.stays hm hgone
  have hback : ∀ {j n}, Function.update F i none j = some n → F j = some n := by
    intro j n hn
    by_cases hj : j = i
    · subst hj
      rw [Function.update_self] at hn
      cases hn
    · rwa [Function.update_of_ne hj] at hn
  obtain ⟨m₀, h₀, hm₀⟩ := h.idle
  obtain ⟨m₁, h₁, hm₁⟩ := h.init
  refine ⟨⟨m₀, (Function.update_of_ne (Ne.symm hi₀) ..).trans h₀, hm₀⟩,
    ⟨m₁, (Function.update_of_ne (Ne.symm hi₁) ..).trans h₁, hm₁⟩,
    fun j k n q hn hq => h.unique j k n q (hback hn) (hback hq), fun j n hn hj₀ hj₁ => ?_⟩
  obtain ⟨hne, k, f, hf, hpid, hfg⟩ := h.father j n (hback hn) hj₀ hj₁
  have hki : k ≠ i := by
    rintro rfl
    cases hm.symm.trans hf
    rw [hfg] at hgone
    cases hgone
  exact ⟨hne, k, f, (Function.update_of_ne hki ..).trans hf, hpid, hfg⟩

end

end Family

end Linux011.Kernel
