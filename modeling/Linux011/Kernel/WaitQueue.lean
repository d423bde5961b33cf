import Mathlib.Data.Set.Basic
import Mathlib.Logic.Function.Basic
import Linux011.Lib.Run

/-!
# Wait queues

`sleep_on` and `wake_up` of `kernel/sched.c` on one queue variable. The queue has no list: the
variable holds the latest sleeper, and each sleeper keeps the one before it in its local variable
`tmp`. A task leaves the processor only inside `schedule`, so `sleep_on` is two steps: up to the call
of `schedule`, and from its return. Between them other tasks and interrupts run.

`waiters_kept` says that the chain loses nobody.
-/

namespace Linux011.Kernel

inductive TaskState where
  | running
  | interruptible
  | uninterruptible
  | zombie
  | stopped
  deriving DecidableEq

/-- The queue variable, the state of each task, and the local variable `tmp` of each task that is
inside `sleep_on`. -/
structure WaitQueue (T : Type _) where
  q : Option T
  state : T → TaskState
  tmp : T → Option (Option T)

namespace WaitQueue

variable {T : Type _} [DecidableEq T]

def setState (s : WaitQueue T) (t : T) (st : TaskState) : WaitQueue T :=
  { s with state := Function.update s.state t st }

/-- `if (tmp) tmp->state=0;` -/
def run (s : WaitQueue T) : Option T → WaitQueue T
  | none => s
  | some t => s.setState t .running

/-- `sleep_on` up to the call of `schedule`; `initTask` must not get here. -/
def sleepOn (initTask current : T) (s : WaitQueue T) : Except String (WaitQueue T) :=
  if current = initTask then .error "task[0] trying to sleep"
  else
    .ok { s with
      q := some current
      state := Function.update s.state current .uninterruptible
      tmp := Function.update s.tmp current (some s.q) }

/-- `sleep_on` after `schedule` has returned to it. -/
def wakened (current : T) (tmp : Option T) (s : WaitQueue T) : WaitQueue T :=
  let s := s.run tmp
  { s with tmp := Function.update s.tmp current none }

def wakeUp (s : WaitQueue T) : WaitQueue T :=
  match s.q with
  | none => s
  | some t => { s.setState t .running with q := none }

/-- Who moves. `other` stands for everything a task does to its state outside `sleep_on`. -/
inductive Event (T : Type _) where
  | sleepOn (current : T)
  | wakened (current : T)
  | wakeUp
  | other (t : T)

inductive Step (initTask : T) : WaitQueue T → Event T → WaitQueue T → Prop
  | sleepOn {s s' : WaitQueue T} {current : T} (hout : s.tmp current = none)
      (hrun : s.state current = .running) (h : s.sleepOn initTask current = .ok s') :
      Step initTask s (.sleepOn current) s'
  | wakened {s : WaitQueue T} {current : T} {tmp : Option T} (hin : s.tmp current = some tmp)
      (hrun : s.state current = .running) : Step initTask s (.wakened current) (s.wakened current tmp)
  | wakeUp {s : WaitQueue T} : Step initTask s .wakeUp s.wakeUp
  | other {s : WaitQueue T} {t : T} (st : TaskState) (hout : s.tmp t = none) :
      Step initTask s (.other t) (s.setState t st)

/-! ## The chain -/

/-- `t` is inside `sleep_on` and not yet made running. -/
def Blocked (s : WaitQueue T) (t : T) : Prop :=
  s.tmp t ≠ none ∧ s.state t = .uninterruptible

/-- `u` has not returned from `sleep_on` and has saved `t`. -/
def Saves (s : WaitQueue T) (u t : T) : Prop :=
  s.tmp u = some (some t)

/-- `t` is made running next when the queue is woken or when a running task returns. -/
def Front (s : WaitQueue T) (t : T) : Prop :=
  s.q = some t ∨ (s.tmp t ≠ none ∧ s.state t = .running)

/-- Nobody is on the queue. -/
def Empty (s : WaitQueue T) : Prop :=
  s.q = none ∧ ∀ t, s.tmp t = none

/-- The links form chains: what a link points to is blocked, no two links point to one task, every
blocked task is pointed to, and a saved task went to sleep (`at_`) before the one that saved it. -/
structure Chained (s : WaitQueue T) (at_ : T → Nat) (now : Nat) : Prop where
  state : ∀ t, s.tmp t ≠ none → s.state t = .running ∨ s.state t = .uninterruptible
  head : ∀ t, s.q = some t → s.Blocked t ∧ ∀ u, ¬ s.Saves u t
  saved : ∀ u t, s.Saves u t → s.Blocked t ∧ at_ t < at_ u
  once : ∀ u v t, s.Saves u t → s.Saves v t → u = v
  linked : ∀ t, s.Blocked t → s.q = some t ∨ ∃ u, s.Saves u t
  past : ∀ t, s.tmp t ≠ none → at_ t < now

section Chain

variable {s : WaitQueue T} {at_ : T → Nat} {now : Nat} {t u current : T}

omit [DecidableEq T] in
theorem Empty.chained (h : s.Empty) (at_ : T → Nat) : s.Chained at_ 0 where
  state t ht := absurd (h.2 t) ht
  head t ht := by rw [h.1] at ht; cases ht
  saved u t hu := by rw [Saves, h.2 u] at hu; cases hu
  once u v t hu := by rw [Saves, h.2 u] at hu; cases hu
  linked t ht := absurd (h.2 t) ht.1
  past t ht := absurd (h.2 t) ht

omit [DecidableEq T] in
/-- A task that is not blocked is pointed to by nobody. -/
theorem Chained.unlinked (h : s.Chained at_ now) (ht : ¬ s.Blocked t) :
    s.q ≠ some t ∧ ∀ u, ¬ s.Saves u t :=
  ⟨fun hq => ht (h.head t hq).1, fun u hu => ht (h.saved u t hu).1⟩

/-- A new sleeper becomes the head, and saves the old one. -/
theorem Chained.sleepOn (h : s.Chained at_ now) (hout : s.tmp current = none) :
    Chained { s with
      q := some current
      state := Function.update s.state current .uninterruptible
      tmp := Function.update s.tmp current (some s.q) }
      (Function.update at_ current now) (now + 1) := by
  have hfree := h.unlinked (t := current) fun hb => hb.1 hout
  -- who was blocked is somebody else, and stays blocked
  have hkeep : ∀ t, s.Blocked t → t ≠ current ∧ Blocked { s with
      q := some current
      state := Function.update s.state current .uninterruptible
      tmp := Function.update s.tmp current (some s.q) } t := by
    intro t ht
    have hne : t ≠ current := by
      rintro rfl
      exact ht.1 hout
    exact ⟨hne, by simpa [Blocked, Function.update_of_ne hne] using ht⟩
  refine ⟨fun t ht => ?_, fun t ht => ?_, fun u t hu => ?_, fun u v t hu hv => ?_, fun t ht => ?_,
    fun t ht => ?_⟩
  · by_cases hc : t = current
    · simp [hc]
    · simp only [Function.update_of_ne hc] at ht ⊢
      exact h.state t ht
  · obtain rfl : current = t := by simpa using ht
    refine ⟨by simp [Blocked], fun u hu => ?_⟩
    by_cases hc : u = current
    · subst hc
      simp only [Saves, Function.update_self, Option.some.injEq] at hu
      exact hfree.1 hu
    · simp only [Saves, Function.update_of_ne hc] at hu
      exact hfree.2 u hu
  · by_cases hc : u = current
    · subst hc
      simp only [Saves, Function.update_self, Option.some.injEq] at hu
      have hb := (h.head t hu).1
      obtain ⟨hne, hb'⟩ := hkeep t hb
      refine ⟨hb', ?_⟩
      rw [Function.update_self, Function.update_of_ne hne]
      exact h.past t hb.1
    · simp only [Saves, Function.update_of_ne hc] at hu
      obtain ⟨hb, hlt⟩ := h.saved u t hu
      obtain ⟨hne, hb'⟩ := hkeep t hb
      refine ⟨hb', ?_⟩
      rwa [Function.update_of_ne hne, Function.update_of_ne hc]
  · -- the old head was saved by nobody before
    by_cases hu' : u = current <;> by_cases hv' : v = current
    · rw [hu', hv']
    · subst hu'
      simp only [Saves, Function.update_self, Option.some.injEq] at hu
      simp only [Saves, Function.update_of_ne hv'] at hv
      exact absurd hv ((h.head t hu).2 v)
    · subst hv'
      simp only [Saves, Function.update_self, Option.some.injEq] at hv
      simp only [Saves, Function.update_of_ne hu'] at hu
      exact absurd hu ((h.head t hv).2 u)
    · simp only [Saves, Function.update_of_ne hu', Function.update_of_ne hv'] at hu hv
      exact h.once u v t hu hv
  · by_cases hc : t = current
    · exact .inl (by rw [hc])
    · have hb : s.Blocked t := by simpa [Blocked, Function.update_of_ne hc] using ht
      rcases h.linked t hb with hq | ⟨u, hu⟩
      · exact .inr ⟨current, by simp [Saves, hq]⟩
      · have hne : u ≠ current := by
          rintro rfl
          rw [Saves, hout] at hu
          cases hu
        exact .inr ⟨u, by simpa [Saves, Function.update_of_ne hne] using hu⟩
  · by_cases hc : t = current
    · rw [hc, Function.update_self]
      exact Nat.lt_succ_self now
    · simp only [Function.update_of_ne hc] at ht ⊢
      exact Nat.lt_succ_of_lt (h.past t ht)

theorem blocked_setState {s : WaitQueue T} {t u : T} :
    (s.setState t .running).Blocked u ↔ s.Blocked u ∧ u ≠ t := by
  by_cases hu : u = t
  · simp [Blocked, setState, hu]
  · simp [Blocked, setState, hu]

/-- Making the head run and dropping it keeps the rest of the chain. -/
theorem Chained.wakeUp (h : s.Chained at_ now) : s.wakeUp.Chained at_ now := by
  cases hq : s.q with
  | none =>
    rw [WaitQueue.wakeUp, hq]
    exact h
  | some t =>
    rw [WaitQueue.wakeUp, hq]
    have hnone := (h.head t hq).2
    refine ⟨fun u hu => ?_, fun u hu => (by cases hu), fun u v hu => ?_, h.once, fun u hu => ?_, h.past⟩
    · by_cases hut : u = t
      · exact .inl (by simp [setState, hut])
      · simp only [setState, Function.update_of_ne hut]
        exact h.state u hu
    · obtain ⟨hb, hlt⟩ := h.saved u v hu
      refine ⟨blocked_setState.mpr ⟨hb, ?_⟩, hlt⟩
      rintro rfl
      exact hnone u hu
    · have hu' : (s.setState t .running).Blocked u := hu
      obtain ⟨hb, hne⟩ := blocked_setState.mp hu'
      rcases h.linked u hb with hq' | hsave
      · exact absurd (Option.some.inj (hq'.symm.trans hq)) hne
      · exact .inr hsave

theorem blocked_wakened {tmp : Option T} (hrun : s.state current = .running) :
    (s.wakened current tmp).Blocked u ↔ s.Blocked u ∧ tmp ≠ some u := by
  have hne : s.Blocked u → u ≠ current := by
    rintro hb rfl
    rw [hb.2] at hrun
    cases hrun
  by_cases hu : u = current
  · simp [wakened, Blocked, hu, hrun]
  · cases tmp with
    | none => simp [wakened, run, Blocked, hu]
    | some t =>
      have := blocked_setState (s := s) (t := t) (u := u)
      simp only [Blocked, wakened, run, Function.update_of_ne hu] at this ⊢
      simpa [setState, eq_comm] using this

theorem saves_wakened {tmp : Option T} :
    (s.wakened current tmp).Saves u t ↔ u ≠ current ∧ s.Saves u t := by
  by_cases hu : u = current
  · simp [wakened, Saves, hu]
  · cases tmp <;> simp [wakened, run, setState, Saves, hu]

/-- A task that returns makes the one it has saved run, and takes its own link out. -/
theorem Chained.wakened (h : s.Chained at_ now) {tmp : Option T} (hin : s.tmp current = some tmp)
    (hrun : s.state current = .running) : (s.wakened current tmp).Chained at_ now := by
  have hq : (s.wakened current tmp).q = s.q := by cases tmp <;> rfl
  have htmp : ∀ u, (s.wakened current tmp).tmp u ≠ none → u ≠ current ∧ s.tmp u ≠ none := by
    intro u hu
    by_cases huc : u = current
    · exact absurd (by simp [WaitQueue.wakened, huc]) hu
    · refine ⟨huc, ?_⟩
      cases tmp <;> simpa [WaitQueue.wakened, run, setState, huc] using hu
  have hsave : ∀ {t}, tmp = some t → s.Saves current t := by
    rintro t rfl
    exact hin
  refine ⟨fun u hu => ?_, fun u hu => ?_, fun u v hu => ?_, fun u v w hu hv => ?_, fun u hu => ?_,
    fun u hu => h.past u (htmp u hu).2⟩
  · obtain ⟨-, hin'⟩ := htmp u hu
    rcases h.state u hin' with hst | hst
    · left
      cases tmp with
      | none => exact hst
      | some t =>
        by_cases hut : u = t
        · simp [WaitQueue.wakened, run, setState, hut]
        · simpa [WaitQueue.wakened, run, setState, hut] using hst
    · cases tmp with
      | none => exact .inr hst
      | some t =>
        by_cases hut : u = t
        · exact .inl (by simp [WaitQueue.wakened, run, setState, hut])
        · exact .inr (by simpa [WaitQueue.wakened, run, setState, hut] using hst)
  · rw [hq] at hu
    obtain ⟨hb, hnone⟩ := h.head u hu
    refine ⟨(blocked_wakened hrun).mpr ⟨hb, fun ht => hnone current (hsave ht)⟩, fun v hv => ?_⟩
    exact hnone v (saves_wakened.mp hv).2
  · obtain ⟨hne, hu'⟩ := saves_wakened.mp hu
    obtain ⟨hb, hlt⟩ := h.saved u v hu'
    -- the returning task had saved somebody else
    exact ⟨(blocked_wakened hrun).mpr ⟨hb, fun ht => hne (h.once u current v hu' (hsave ht))⟩, hlt⟩
  · exact h.once u v w (saves_wakened.mp hu).2 (saves_wakened.mp hv).2
  · obtain ⟨hb, hne⟩ := (blocked_wakened hrun).mp hu
    rcases h.linked u hb with hq' | ⟨v, hv⟩
    · exact .inl (hq.trans hq')
    · refine .inr ⟨v, saves_wakened.mpr ⟨?_, hv⟩⟩
      rintro rfl
      rw [Saves, hin] at hv
      exact hne (Option.some.inj hv)

/-- Outside `sleep_on` a task can do what it likes. -/
theorem Chained.other (h : s.Chained at_ now) {st : TaskState} (hout : s.tmp t = none) :
    (s.setState t st).Chained at_ now := by
  have hb : ∀ u, (s.setState t st).Blocked u ↔ s.Blocked u := by
    intro u
    by_cases hu : u = t
    · simp [Blocked, setState, hu, hout]
    · simp [Blocked, setState, hu]
  refine ⟨fun u hu => ?_, fun u hu => ?_, fun u v hu => ?_, h.once, fun u hu => ?_, h.past⟩
  · have hne : u ≠ t := by
      rintro rfl
      exact hu hout
    simp only [setState, Function.update_of_ne hne]
    exact h.state u hu
  · exact ⟨(hb u).mpr (h.head u hu).1, (h.head u hu).2⟩
  · exact ⟨(hb v).mpr (h.saved u v hu).1, (h.saved u v hu).2⟩
  · exact h.linked u ((hb u).mp hu)

end Chain

/-! ## Runs -/

variable {initTask : T} {s s' : WaitQueue T} {e : Event T} {es : List (Event T)}

theorem sleepOn_ok {current : T} (h : s.sleepOn initTask current = .ok s') :
    current ≠ initTask ∧ s' = { s with
      q := some current
      state := Function.update s.state current .uninterruptible
      tmp := Function.update s.tmp current (some s.q) } := by
  simp only [sleepOn] at h
  split at h
  next => cases h
  next hne =>
    cases h
    exact ⟨hne, rfl⟩

/-- Some order of arrival explains the links. -/
def Linked (s : WaitQueue T) : Prop :=
  ∃ at_ now, s.Chained at_ now

theorem Linked.step (h : s.Linked) (hst : Step initTask s e s') : s'.Linked := by
  obtain ⟨at_, now, h⟩ := h
  cases hst with
  | sleepOn hout hrun hs =>
    obtain ⟨-, rfl⟩ := sleepOn_ok hs
    exact ⟨_, _, h.sleepOn hout⟩
  | wakened hin hrun => exact ⟨_, _, h.wakened hin hrun⟩
  | wakeUp => exact ⟨_, _, h.wakeUp⟩
  | other st hout => exact ⟨_, _, h.other hout⟩

theorem Empty.linked (h0 : s.Empty) (hrun : Lib.Run (Step initTask) s es s') : s'.Linked :=
  hrun.inv (fun _ _ _ h hst => h.step hst) ⟨fun _ => 0, 0, h0.chained _⟩

omit [DecidableEq T] in
/-- Going from a blocked task to the one that saved it, and on, ends at the queue variable or at a
task that is on its way out. -/
theorem Linked.front (h : s.Linked) {t : T} (ht : s.Blocked t) :
    ∃ u, Relation.ReflTransGen (fun a b => s.Saves b a) t u ∧ s.Front u := by
  obtain ⟨at_, now, h⟩ := h
  -- a saver went to sleep later, and nobody goes to sleep after `now`
  induction hk : now - at_ t using Nat.strongRecOn generalizing t with
  | _ k ih =>
    rcases h.linked t ht with hq | ⟨u, hu⟩
    · exact ⟨t, .refl, .inl hq⟩
    · have hin : s.tmp u ≠ none := by
        rw [hu]
        exact Option.some_ne_none _
      rcases h.state u hin with hrun | hblk
      · exact ⟨u, .single hu, .inr ⟨hin, hrun⟩⟩
      · have hlt := (h.saved u t hu).2
        have hpast := h.past u hin
        obtain ⟨v, hpath, hfront⟩ := ih (now - at_ u) (by omega) ⟨hin, hblk⟩ rfl
        exact ⟨v, .head hu hpath, hfront⟩

/-- A blocked task is made running by `wake_up` at the head, or by the one that saved it. -/
theorem step_runs {t : T} (hst : Step initTask s e s') (ht : s.Blocked t) (ht' : ¬ s'.Blocked t) :
    (e = .wakeUp ∧ s.q = some t) ∨ ∃ u, e = .wakened u ∧ s.Saves u t := by
  cases hst with
  | sleepOn hout hrun hs =>
    obtain ⟨-, rfl⟩ := sleepOn_ok hs
    refine absurd ?_ ht'
    rename_i current
    have hne : t ≠ current := by
      rintro rfl
      exact ht.1 hout
    simpa [Blocked, Function.update_of_ne hne] using ht
  | wakened hin hrun =>
    rename_i current tmp
    refine .inr ⟨current, rfl, ?_⟩
    by_contra hsave
    refine ht' ((blocked_wakened hrun).mpr ⟨ht, fun htmp => hsave ?_⟩)
    rw [Saves, hin, htmp]
  | wakeUp =>
    refine .inl ⟨rfl, ?_⟩
    by_contra hq
    refine ht' ?_
    cases hs : s.q with
    | none =>
      rw [wakeUp, hs]
      exact ht
    | some u =>
      rw [wakeUp, hs]
      refine blocked_setState.mpr ⟨ht, ?_⟩
      rintro rfl
      exact hq hs
  | other st hout =>
    refine absurd ?_ ht'
    rename_i u
    have hne : t ≠ u := by
      rintro rfl
      exact ht.1 hout
    simpa [Blocked, setState, Function.update_of_ne hne] using ht

/-- In every state of every run from an empty queue: each blocked task is the head, and nobody has
saved it, or exactly one other task inside `sleep_on` has; the chain from it leads to the head or to
a running task that is on its way out; and only `wake_up` or the task that saved it makes it run. -/
theorem waiters_kept (h0 : s.Empty) (hrun : Lib.Run (Step initTask) s es s') {t : T}
    (ht : s'.Blocked t) :
    ((s'.q = some t ∧ ∀ u, ¬ s'.Saves u t) ∨
      (s'.q ≠ some t ∧ ¬ s'.Saves t t ∧ ∃! u, s'.Saves u t)) ∧
    (∃ u, Relation.ReflTransGen (fun a b => s'.Saves b a) t u ∧ s'.Front u) ∧
    (∀ e s'', Step initTask s' e s'' → ¬ s''.Blocked t →
      (e = .wakeUp ∧ s'.q = some t) ∨ ∃ u, e = .wakened u ∧ s'.Saves u t) := by
  have hlinked := h0.linked hrun
  refine ⟨?_, hlinked.front ht, fun e s'' hst ht' => step_runs hst ht ht'⟩
  obtain ⟨at_, now, h⟩ := hlinked
  by_cases hq : s'.q = some t
  · exact .inl ⟨hq, (h.head t hq).2⟩
  · obtain ⟨u, hu⟩ := (h.linked t ht).resolve_left hq
    refine .inr ⟨hq, fun hself => ?_, u, hu, fun v hv => h.once v u t hv hu⟩
    exact (h.saved t t hself).2.false

/-- Tasks 1 and 2 have gone to sleep, in this order. -/
def twoSleepers : WaitQueue Nat where
  q := some 2
  state := Function.update (Function.update (fun _ => .running) 1 .uninterruptible) 2 .uninterruptible
  tmp := Function.update (Function.update (fun _ => none) 1 (some none)) 2 (some (some 1))

theorem waiters_kept_two :
    ((twoSleepers.q = some 1 ∧ ∀ u, ¬ twoSleepers.Saves u 1) ∨
      (twoSleepers.q ≠ some 1 ∧ ¬ twoSleepers.Saves 1 1 ∧ ∃! u, twoSleepers.Saves u 1)) ∧
    (∃ u, Relation.ReflTransGen (fun a b => twoSleepers.Saves b a) 1 u ∧ twoSleepers.Front u) ∧
    (∀ e s, Step 0 twoSleepers e s → ¬ s.Blocked 1 →
      (e = .wakeUp ∧ twoSleepers.q = some 1) ∨ ∃ u, e = .wakened u ∧ twoSleepers.Saves u 1) := by
  have h1 : Step 0 ⟨none, fun _ => .running, fun _ => none⟩ (.sleepOn 1) _ :=
    .sleepOn rfl rfl rfl
  have h2 : Step 0 _ (.sleepOn 2) twoSleepers := .sleepOn (s := ⟨some 1, _, _⟩) rfl rfl rfl
  exact waiters_kept ⟨rfl, fun _ => rfl⟩ (Lib.Run.snoc (Lib.Run.snoc .nil h1) h2)
    ⟨by decide, by decide⟩

/-- A queue with no head and nobody on the way out holds nobody. -/
theorem no_waiter_left (h0 : s.Empty) (hrun : Lib.Run (Step initTask) s es s') (hq : s'.q = none)
    (hout : ∀ u, s'.tmp u ≠ none → s'.state u ≠ .running) (t : T) : ¬ s'.Blocked t := by
  intro ht
  obtain ⟨u, -, hfront⟩ := (h0.linked hrun).front ht
  rcases hfront with hhead | ⟨hin, hrun⟩
  · rw [hq] at hhead
    cases hhead
  · exact hout u hin hrun

end WaitQueue

end Linux011.Kernel
