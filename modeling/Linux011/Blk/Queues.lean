import Mathlib.Data.List.NodupEquivFin
import Linux011.Blk.Request

/-!
# Runs of block requests

What tasks in `ll_rw_block`, interrupts and the other users of the buffers do to the requests, in any
order. `Queued` says what the queues look like at every moment; `requests_sound` reads off it that
the panics of `INIT_REQUEST` cannot happen.
-/

namespace Linux011.Blk

namespace Dev

variable {T B : Type _} [DecidableEq T] [DecidableEq B]

inductive Event (T B : Type _) where
  | call (t : T) (rw : Rw) (bh : B)
  | resume (t : T)
  | advance (t : T)
  | complete (m : Nat) (uptodate : Bool)
  | driver (m : Nat)
  | touch (bh : B)
  | reuse (bh : B)

/-- A call starts when no task runs inside `ll_rw_block`, and so does a sleeper that goes on; it may
wake up at any time, for both places where it sleeps test again. A request is completed at any time,
and the driver changes the counters of `CURRENT` as it works. The users of a buffer set its flags;
`getblk` gives it to another block when it is not locked and no call is about it. -/
inductive Step : Dev T B → Event T B → Dev T B → Prop
  | call {s : Dev T B} {t : T} {rw : Rw} {bh : B} {c : Call B} (hcpu : s.cpu = none)
      (hidle : s.calls t = none) (hc : s.llRwBlock rw bh = some c) :
      Step s (.call t rw bh) (s.goOn t .lock c)
  | resume {s : Dev T B} {t : T} {pc : Pc} {c : Call B} (hcpu : s.cpu = none)
      (hin : s.calls t = some (pc, c)) : Step s (.resume t) (s.goOn t pc c)
  | advance {s s' : Dev T B} {t : T} {pc : Pc} {c : Call B} (hcpu : s.cpu = some t)
      (hin : s.calls t = some (pc, c)) (h : s.advance t c pc = some s') : Step s (.advance t) s'
  | complete {s : Dev T B} {m r : Nat} {uptodate : Bool} (hcur : s.current m = some r) :
      Step s (.complete m uptodate) (s.endRequest m r uptodate)
  | driver {s : Dev T B} {m r : Nat} (errors sector nrSectors : Nat) (hcur : s.current m = some r) :
      Step s (.driver m) (s.setRequest r fun q =>
        { q with errors := errors, sector := sector, nrSectors := nrSectors })
  | touch {s : Dev T B} {bh : B} (uptodate dirt : Bool) :
      Step s (.touch bh) (s.setBuf bh fun h => { h with bUptodate := uptodate, bDirt := dirt })
  | reuse {s : Dev T B} {bh : B} (dev blocknr : Nat) (hlock : (s.buf bh).bLock = false)
      (hcalls : ∀ t pc c, s.calls t = some (pc, c) → c.bh ≠ bh) :
      Step s (.reuse bh) (s.setBuf bh fun h => { h with bDev := dev, bBlocknr := blocknr })

/-- `blk_dev_init`: all slots free, all queues empty, no buffer locked, no call. -/
structure Init (s : Dev T B) : Prop where
  free : ∀ r < nrRequest, (s.request r).dev < 0
  empty : ∀ m, s.current m = none
  unlocked : ∀ b, (s.buf b).bLock = false
  calls : ∀ t, s.calls t = none
  cpu : s.cpu = none

/-- `q m` is the queue of major `m`. -/
structure Queues (s : Dev T B) (q : Nat → List Nat) : Prop where
  chain : ∀ m, Lib.Chain (fun r => (s.request r).next) (s.current m) (q m)
  nodup : ∀ m, (q m).Nodup
  apart : ∀ m m' r, r ∈ q m → r ∈ q m' → m = m'
  slot : ∀ m r, r ∈ q m → r < nrRequest
  used : ∀ r < nrRequest, 0 ≤ (s.request r).dev ↔ ∃ m, r ∈ q m
  transfer : ∀ m r, r ∈ q m → major (s.request r).dev = m ∧
    ∃ b, (s.request r).bh = some b ∧ (s.buf b).bLock = true ∧ (s.buf b).bDev = (s.request r).dev ∧
      (∀ m' r', r' ∈ q m' → (s.request r').bh = some b → r' = r)

/-- The call holds the lock of its buffer. -/
def holds : Pc → Prop
  | .lock => False
  | _ => True

/-- The calls in progress: those past `lock_buffer` hold a lock that belongs to no request and to no
other call, and the slot a call has found is free. -/
structure Calls (s : Dev T B) (q : Nat → List Nat) : Prop where
  major : ∀ t pc c, s.calls t = some (pc, c) → c.major = major (s.buf c.bh).bDev
  locked : ∀ t pc c, s.calls t = some (pc, c) → holds pc → (s.buf c.bh).bLock = true
  own : ∀ t pc c, s.calls t = some (pc, c) → holds pc →
    ∀ m r, r ∈ q m → (s.request r).bh ≠ some c.bh
  mutex : ∀ t t' pc pc' c c', s.calls t = some (pc, c) → s.calls t' = some (pc', c') → holds pc →
    holds pc' → c.bh = c'.bh → t = t'
  scan : ∀ t n c, s.calls t = some (.scan n, c) → n ≤ nrRequest
  fill : ∀ t r c, s.calls t = some (.fill r, c) → s.cpu = some t ∧ r < nrRequest ∧
    (s.request r).dev < 0
  owned : ∀ b, (s.buf b).bLock = true → (∃ m r, r ∈ q m ∧ (s.request r).bh = some b) ∨
    ∃ t pc c, s.calls t = some (pc, c) ∧ holds pc ∧ c.bh = b

def Queued (s : Dev T B) (q : Nat → List Nat) : Prop :=
  s.Queues q ∧ s.Calls q

variable {s s' : Dev T B} {q : Nat → List Nat} {t : T} {c : Call B} {pc pc' : Pc}

omit [DecidableEq T] [DecidableEq B] in
theorem Init.queued (h : s.Init) : s.Queued fun _ => [] := by
  refine ⟨⟨h.empty, fun _ => List.nodup_nil, fun _ _ _ hr => (by cases hr), fun _ _ hr => (by cases hr),
    fun r hr => ?_, fun _ _ hr => (by cases hr)⟩, ?_⟩
  · refine ⟨fun h0 => ?_, fun ⟨_, hm⟩ => (by cases hm)⟩
    have hneg := h.free r hr
    omega
  · have hno : ∀ {t pc c}, s.calls t ≠ some (pc, c) := by
      intro t pc c
      rw [h.calls t]
      exact Option.some_ne_none _ |>.symm
    refine ⟨fun _ _ _ hc => absurd hc hno, fun _ _ _ hc => absurd hc hno, fun _ _ _ hc => absurd hc hno,
      fun _ _ _ _ _ _ hc => absurd hc hno, fun _ _ _ hc => absurd hc hno,
      fun _ _ _ hc => absurd hc hno, fun b hb => ?_⟩
    rw [h.unlocked b] at hb
    cases hb

/-! ### Steps that leave the queues alone -/

omit [DecidableEq T] [DecidableEq B] in
/-- The queues depend on the requests, and on the lock and the device of the buffers they are for. -/
theorem Queues.keep (h : s.Queues q) (hreq : s'.request = s.request) (hcur : s'.current = s.current)
    (hbuf : ∀ m r b, r ∈ q m → (s.request r).bh = some b →
      (s'.buf b).bLock = (s.buf b).bLock ∧ (s'.buf b).bDev = (s.buf b).bDev) : s'.Queues q := by
  refine ⟨?_, h.nodup, h.apart, h.slot, ?_, fun m r hr => ?_⟩
  · rw [hreq, hcur]
    exact h.chain
  · rw [hreq]
    exact h.used
  · obtain ⟨hmaj, b, hb, hlock, hdev, hone⟩ := h.transfer m r hr
    obtain ⟨hlock', hdev'⟩ := hbuf m r b hr hb
    rw [hreq]
    exact ⟨hmaj, b, hb, hlock'.trans hlock, by rw [hdev']; exact hdev, hone⟩

omit [DecidableEq B] in
/-- One call moves on without taking or dropping a lock. -/
theorem Calls.move (h : s.Calls q) (hin : s.calls t = some (pc, c))
    (hcalls : s'.calls = Function.update s.calls t (some (pc', c))) (hheld : holds pc ↔ holds pc') (hreq : s'.request = s.request)
    (hbuf : s'.buf = s.buf) (hscan : ∀ n, pc' = .scan n → n ≤ nrRequest)
    (hfill : ∀ r, pc' = .fill r → s'.cpu = some t ∧ r < nrRequest ∧ (s.request r).dev < 0)
    (hcpu : ∀ u, u ≠ t → s.cpu ≠ some u) : s'.Calls q := by
  -- the calls after the step are those before it, up to the place of `t`
  have hback : ∀ {u pc₁ c₁}, s'.calls u = some (pc₁, c₁) → ∃ pc₀, s.calls u = some (pc₀, c₁) ∧
      (holds pc₀ ↔ holds pc₁) ∧ (u ≠ t → pc₀ = pc₁) := by
    intro u pc₁ c₁ hu
    rw [hcalls] at hu
    by_cases hut : u = t
    · subst hut
      rw [Function.update_self] at hu
      cases hu
      exact ⟨pc, hin, hheld, fun hne => absurd rfl hne⟩
    · rw [Function.update_of_ne hut] at hu
      exact ⟨pc₁, hu, Iff.rfl, fun _ => rfl⟩
  have hself : ∀ {pc₁ c₁}, s'.calls t = some (pc₁, c₁) → pc₁ = pc' := by
    intro pc₁ c₁ hu
    rw [hcalls, Function.update_self] at hu
    cases hu
    rfl
  refine ⟨fun u pc₁ c₁ hu => ?_, fun u pc₁ c₁ hu hh => ?_, fun u pc₁ c₁ hu hh => ?_,
    fun u v pc₁ pc₂ c₁ c₂ hu hv hh hh' => ?_, fun u n c₁ hu => ?_, fun u r c₁ hu => ?_,
    fun b hb => ?_⟩
  · obtain ⟨pc₀, h0, -, -⟩ := hback hu
    rw [hbuf]
    exact h.major u pc₀ c₁ h0
  · obtain ⟨pc₀, h0, hiff, -⟩ := hback hu
    rw [hbuf]
    exact h.locked u pc₀ c₁ h0 (hiff.mpr hh)
  · obtain ⟨pc₀, h0, hiff, -⟩ := hback hu
    rw [hreq]
    exact h.own u pc₀ c₁ h0 (hiff.mpr hh)
  · obtain ⟨pc₀, h0, hiff, -⟩ := hback hu
    obtain ⟨pc₀', h0', hiff', -⟩ := hback hv
    exact h.mutex u v pc₀ pc₀' c₁ c₂ h0 h0' (hiff.mpr hh) (hiff'.mpr hh')
  · by_cases hut : u = t
    · subst hut
      exact hscan n (hself hu).symm
    · obtain ⟨pc₀, h0, -, hsame⟩ := hback hu
      exact h.scan u n c₁ (hsame hut ▸ h0)
  · by_cases hut : u = t
    · subst hut
      rw [hreq]
      exact hfill r (hself hu).symm
    · obtain ⟨pc₀, h0, -, hsame⟩ := hback hu
      exact absurd (h.fill u r c₁ (hsame hut ▸ h0)).1 (hcpu u hut)
  · rw [hbuf] at hb
    rw [hreq]
    refine (h.owned b hb).imp_right ?_
    rintro ⟨u, pc₀, c₀, h0, hh, rfl⟩
    by_cases hut : u = t
    · subst hut
      rw [hin] at h0
      cases h0
      exact ⟨u, pc', c, by rw [hcalls, Function.update_self], hheld.mp hh, rfl⟩
    · exact ⟨u, pc₀, c₀, by rw [hcalls, Function.update_of_ne hut]; exact h0, hh, rfl⟩

/-! ### Locks -/

omit [DecidableEq T] in
@[simp] theorem setLock_bLock (s : Dev T B) (b b' : B) (v : Bool) :
    ((s.setLock b v).buf b').bLock = if b' = b then v else (s.buf b').bLock := by
  by_cases hb : b' = b
  · simp [setLock, setBuf, hb]
  · simp [setLock, setBuf, hb]

omit [DecidableEq T] in
@[simp] theorem setLock_bDev (s : Dev T B) (b b' : B) (v : Bool) :
    ((s.setLock b v).buf b').bDev = (s.buf b').bDev := by
  by_cases hb : b' = b
  · simp [setLock, setBuf, hb]
  · simp [setLock, setBuf, hb]

omit [DecidableEq T] in
@[simp] theorem setLock_calls (s : Dev T B) (b : B) (v : Bool) : (s.setLock b v).calls = s.calls := rfl
omit [DecidableEq T] in
@[simp] theorem setLock_request (s : Dev T B) (b : B) (v : Bool) :
    (s.setLock b v).request = s.request := rfl

omit [DecidableEq B] in
/-- The calls after one has gone on. -/
theorem goOn_back {u : T} {pc₁ : Pc} {c₁ : Call B} (hu : (s.goOn t pc c).calls u = some (pc₁, c₁)) :
    (u = t ∧ pc₁ = pc ∧ c₁ = c) ∨ (u ≠ t ∧ s.calls u = some (pc₁, c₁)) := by
  simp only [goOn] at hu
  by_cases hut : u = t
  · subst hut
    rw [Function.update_self] at hu
    cases hu
    exact .inl ⟨rfl, rfl, rfl⟩
  · rw [Function.update_of_ne hut] at hu
    exact .inr ⟨hut, hu⟩

omit [DecidableEq B] in
/-- The calls after one has left. -/
theorem leave_back {u : T} {pc₁ : Pc} {c₁ : Call B} (hu : (s.leave t).calls u = some (pc₁, c₁)) :
    u ≠ t ∧ s.calls u = some (pc₁, c₁) := by
  simp only [Dev.leave] at hu
  by_cases hut : u = t
  · rw [hut, Function.update_self] at hu
    cases hu
  · rw [Function.update_of_ne hut] at hu
    exact ⟨hut, hu⟩

/-- `lock_buffer` on an unlocked buffer. -/
theorem Queued.take (h : s.Queued q) (hin : s.calls t = some (.lock, c)) (hcpu : s.cpu = some t)
    (hfree : (s.buf c.bh).bLock = false) {n : Nat} (hn : n ≤ nrRequest) :
    ((s.setLock c.bh true).goOn t (.scan n) c).Queued q := by
  obtain ⟨hq, hc⟩ := h
  -- no request is about an unlocked buffer
  have hnone : ∀ m r, r ∈ q m → (s.request r).bh ≠ some c.bh := by
    intro m r hr hbh
    obtain ⟨-, b, hb, hlock, -⟩ := hq.transfer m r hr
    obtain rfl : b = c.bh := Option.some.inj (hb.symm.trans hbh)
    rw [hfree] at hlock
    cases hlock
  have hback : ∀ {u pc₁ c₁}, ((s.setLock c.bh true).goOn t (.scan n) c).calls u = some (pc₁, c₁) →
      (u = t ∧ pc₁ = .scan n ∧ c₁ = c) ∨ (u ≠ t ∧ s.calls u = some (pc₁, c₁)) :=
    goOn_back (s := s.setLock c.bh true)
  -- another call that holds a lock holds another one
  have hother : ∀ {u pc₁ c₁}, s.calls u = some (pc₁, c₁) → holds pc₁ → c₁.bh ≠ c.bh := by
    intro u pc₁ c₁ hu hh heq
    have hlock := hc.locked u pc₁ c₁ hu hh
    rw [heq, hfree] at hlock
    cases hlock
  refine ⟨hq.keep rfl rfl fun m r b hr hb => ?_, fun u pc₁ c₁ hu => ?_, fun u pc₁ c₁ hu hh => ?_,
    fun u pc₁ c₁ hu hh => ?_, fun u v pc₁ pc₂ c₁ c₂ hu hv hh hh' heq => ?_, fun u k c₁ hu => ?_,
    fun u r c₁ hu => ?_, fun b hb => ?_⟩
  · have hne : b ≠ c.bh := fun heq => hnone m r hr (heq ▸ hb)
    exact ⟨by simp [goOn, hne], by simp [goOn]⟩
  · rcases hback hu with ⟨rfl, rfl, rfl⟩ | ⟨-, hu⟩
    · simpa [goOn] using hc.major u _ c₁ hin
    · simpa [goOn] using hc.major u pc₁ c₁ hu
  · rcases hback hu with ⟨rfl, rfl, rfl⟩ | ⟨-, hu⟩
    · simp [goOn]
    · simp [goOn, hc.locked u pc₁ c₁ hu hh]
  · rcases hback hu with ⟨rfl, rfl, rfl⟩ | ⟨-, hu⟩
    · exact hnone
    · exact hc.own u pc₁ c₁ hu hh
  · rcases hback hu with ⟨hut, -, hcu⟩ | ⟨-, hu'⟩ <;> rcases hback hv with ⟨hvt, -, hcv⟩ | ⟨-, hv'⟩
    · rw [hut, hvt]
    · exact absurd (heq.symm.trans (by rw [hcu])) (hother hv' hh')
    · exact absurd (heq.trans (by rw [hcv])) (hother hu' hh)
    · exact hc.mutex u v pc₁ pc₂ c₁ c₂ hu' hv' hh hh' heq
  · rcases hback hu with ⟨-, hpc, -⟩ | ⟨-, hu⟩
    · cases hpc
      exact hn
    · exact hc.scan u k c₁ hu
  · rcases hback hu with ⟨-, hpc, -⟩ | ⟨hut, hu⟩
    · cases hpc
    · exact absurd ((hc.fill u r c₁ hu).1.symm.trans hcpu) fun he => hut (Option.some.inj he)
  · by_cases hbc : b = c.bh
    · exact .inr ⟨t, .scan n, c, by simp [goOn], trivial, hbc.symm⟩
    · have hb' : (s.buf b).bLock = true := by simpa [goOn, hbc] using hb
      refine (hc.owned b hb').imp_right ?_
      rintro ⟨u, pc₀, c₀, h0, hh, rfl⟩
      refine ⟨u, pc₀, c₀, ?_, hh, rfl⟩
      have hut : u ≠ t := by
        rintro rfl
        rw [hin] at h0
        cases h0
        exact hh
      simpa [goOn, hut] using h0

/-- A call leaves: with the lock, if it holds one. -/
theorem Queued.leave (h : s.Queued q) (hin : s.calls t = some (pc, c)) (hcpu : s.cpu = some t)
    (hfree : ¬ holds pc → (s.buf c.bh).bLock = false) :
    ((s.setLock c.bh false).leave t).Queued q := by
  obtain ⟨hq, hc⟩ := h
  have hback : ∀ {u pc₁ c₁}, ((s.setLock c.bh false).leave t).calls u = some (pc₁, c₁) →
      u ≠ t ∧ s.calls u = some (pc₁, c₁) := leave_back (s := s.setLock c.bh false)
  -- the lock that is dropped is nobody else's
  have hother : ∀ {u pc₁ c₁}, u ≠ t → s.calls u = some (pc₁, c₁) → holds pc₁ → c₁.bh ≠ c.bh := by
    intro u pc₁ c₁ hut hu hh heq
    by_cases hpc : holds pc
    · exact hut (hc.mutex u t pc₁ pc c₁ c hu hin hh hpc heq)
    · have hlock := hc.locked u pc₁ c₁ hu hh
      rw [heq, hfree hpc] at hlock
      cases hlock
  refine ⟨hq.keep rfl rfl fun m r b hr hb => ?_, fun u pc₁ c₁ hu => ?_, fun u pc₁ c₁ hu hh => ?_,
    fun u pc₁ c₁ hu hh => ?_, fun u v pc₁ pc₂ c₁ c₂ hu hv hh hh' heq => ?_, fun u k c₁ hu => ?_,
    fun u r c₁ hu => ?_, fun b hb => ?_⟩
  · have hne : b ≠ c.bh := by
      rintro rfl
      by_cases hpc : holds pc
      · exact hc.own t pc c hin hpc m r hr hb
      · obtain ⟨-, b', hb', hlock, -⟩ := hq.transfer m r hr
        obtain rfl := Option.some.inj (hb'.symm.trans hb)
        rw [hfree hpc] at hlock
        cases hlock
    exact ⟨by simp [Dev.leave, hne], by simp [Dev.leave]⟩
  · simpa [Dev.leave] using hc.major u pc₁ c₁ (hback hu).2
  · have hne := hother (hback hu).1 (hback hu).2 hh
    simpa [Dev.leave, hne] using hc.locked u pc₁ c₁ (hback hu).2 hh
  · exact hc.own u pc₁ c₁ (hback hu).2 hh
  · exact hc.mutex u v pc₁ pc₂ c₁ c₂ (hback hu).2 (hback hv).2 hh hh' heq
  · exact hc.scan u k c₁ (hback hu).2
  · obtain ⟨hut, hu⟩ := hback hu
    exact absurd ((hc.fill u r c₁ hu).1.symm.trans hcpu) fun he => hut (Option.some.inj he)
  · have hbc : b ≠ c.bh := by
      rintro rfl
      simp [Dev.leave] at hb
    have hb' : (s.buf b).bLock = true := by simpa [Dev.leave, hbc] using hb
    refine (hc.owned b hb').imp_right ?_
    rintro ⟨u, pc₀, c₀, h0, hh, rfl⟩
    refine ⟨u, pc₀, c₀, ?_, hh, rfl⟩
    have hut : u ≠ t := by
      rintro rfl
      rw [hin] at h0
      cases h0
      exact hbc rfl
    simpa [Dev.leave, hut] using h0

/-! ### Linking a request -/

omit [DecidableEq T] in
omit [DecidableEq B] in
theorem next_setRequest (s : Dev T B) (r : Nat) (f : Request B → Request B) :
    (fun x => ((s.setRequest r f).request x).next) =
      Function.update (fun x => (s.request x).next) r (f (s.request r)).next := by
  funext x
  by_cases hx : x = r
  · simp [setRequest, hx]
  · simp [setRequest, hx]

omit [DecidableEq B] in
/-- The loop of `add_request` ends on a chain that has no more nodes than there are slots, at one of
its nodes. -/
theorem findPlace_mem {request : Nat → Request B} (req : Nat) : ∀ {fuel tmp : Nat} {l : List Nat},
    Lib.Chain (fun r => (request r).next) (some tmp) l → l.length ≤ fuel →
    ∃ p ∈ l, findPlace request req fuel tmp = some p
  | 0, _, l, h, hlen => by
    obtain ⟨l', rfl, -⟩ := h.of_some
    cases hlen
  | fuel + 1, tmp, l, h, hlen => by
    obtain ⟨l', rfl, htail⟩ := h.of_some
    simp only [findPlace]
    cases hnext : (request tmp).next with
    | none => exact ⟨tmp, List.mem_cons_self, rfl⟩
    | some nx =>
      simp only
      split
      · exact ⟨tmp, List.mem_cons_self, rfl⟩
      · simp only [hnext] at htail
        obtain ⟨p, hp, hfind⟩ := findPlace_mem req htail (by simpa using hlen)
        exact ⟨p, List.mem_cons_of_mem tmp hp, hfind⟩

/-- `s'` is `s` with the free slot `req` filled in for `c` and linked into the queue of its major,
which changes from `l` to `l'`. -/
structure Linked (s s' : Dev T B) (req : Nat) (c : Call B) (l l' : List Nat) : Prop where
  others : ∀ r, r ≠ req → (s'.request r).dev = (s.request r).dev ∧ (s'.request r).bh = (s.request r).bh
  new : (s'.request req).dev = (s.buf c.bh).bDev ∧ (s'.request req).bh = some c.bh
  buf : ∀ b, (s'.buf b).bLock = (s.buf b).bLock ∧ (s'.buf b).bDev = (s.buf b).bDev
  calls : s'.calls = s.calls
  chain : Lib.Chain (fun r => (s'.request r).next) (s'.current c.major) l'
  current : ∀ m, m ≠ c.major → s'.current m = s.current m
  next : ∀ r, r ∉ l → r ≠ req → (s'.request r).next = (s.request r).next
  perm : l'.Perm (req :: l)

/-- The slot filled in, before it is linked. -/
def filled (s : Dev T B) (req : Nat) (c : Call B) : Dev T B :=
  ((s.fillRequest req c).setRequest req fun r => { r with next := none }).clearDirt (some c.bh)

omit [DecidableEq T] in
theorem filled_request (s : Dev T B) (req r : Nat) (c : Call B) :
    ((s.filled req c).request r).dev = (if r = req then ((s.buf c.bh).bDev : Int) else (s.request r).dev) ∧
    ((s.filled req c).request r).bh = (if r = req then some c.bh else (s.request r).bh) := by
  by_cases hr : r = req
  · simp [filled, clearDirt, setBuf, setRequest, fillRequest, hr]
  · simp [filled, clearDirt, setBuf, setRequest, fillRequest, hr]

omit [DecidableEq T] in
theorem filled_buf (s : Dev T B) (req : Nat) (c : Call B) (b : B) :
    ((s.filled req c).buf b).bLock = (s.buf b).bLock ∧
    ((s.filled req c).buf b).bDev = (s.buf b).bDev := by
  by_cases hb : b = c.bh
  · simp [filled, clearDirt, setBuf, setRequest, fillRequest, hb]
  · simp [filled, clearDirt, setBuf, setRequest, fillRequest, hb]

omit [DecidableEq T] in
theorem filled_next (s : Dev T B) (req : Nat) (c : Call B) :
    (fun r => ((s.filled req c).request r).next) =
      Function.update (fun r => (s.request r).next) req none := by
  show (fun r => (((s.fillRequest req c).setRequest req fun r => { r with next := none }).request
    r).next) = _
  rw [next_setRequest, fillRequest, next_setRequest, Function.update_idem]

omit [DecidableEq T] in
theorem addRequest_linked {req : Nat} {l : List Nat}
    (hchain : Lib.Chain (fun r => (s.request r).next) (s.current c.major) l) (hnodup : l.Nodup)
    (hlen : l.length ≤ nrRequest) (hreq : req ∉ l) :
    ∃ s' l', (s.fillRequest req c).addRequest c.major req = some s' ∧ s.Linked s' req c l l' := by
  have hbh : (((s.fillRequest req c).setRequest req fun r => { r with next := none }).request req).bh =
      some c.bh := by simp [setRequest, fillRequest]
  have hfilled : ((s.fillRequest req c).setRequest req fun r => { r with next := none }).clearDirt (some c.bh) =
      s.filled req c := rfl
  simp only [addRequest, hbh, hfilled]
  have hcurrent : (s.filled req c).current = s.current := rfl
  have hnext := s.filled_next req c
  have hsame : ∀ r, r ≠ req → ((s.filled req c).request r).next = (s.request r).next := by
    intro r hr
    have := congrFun hnext r
    simpa [hr] using this
  cases hhead : s.current c.major with
  | none =>
    -- the queue was empty: the request is all of it
    rw [hhead] at hchain
    obtain rfl := hchain.of_none
    refine ⟨(s.filled req c).setCurrent c.major (some req), [req], by rw [hcurrent, hhead],
      fun r hr => ?_, ?_, s.filled_buf req c, rfl, ?_, fun m hm => ?_, fun r _ hr => hsame r hr,
      .refl _⟩
    · simpa [setCurrent, hr] using s.filled_request req r c
    · simpa [setCurrent] using s.filled_request req req c
    · refine ⟨by simp [setCurrent], ?_⟩
      have := congrFun hnext req
      simpa [setCurrent] using this
    · simp [setCurrent, hm, hcurrent]
  | some head =>
    rw [hhead] at hchain
    have hfchain : Lib.Chain (fun r => ((s.filled req c).request r).next) (some head) l := by
      refine hchain.congr fun r hr => hsame r ?_
      rintro rfl
      exact hreq hr
    obtain ⟨p, hp, hfind⟩ := findPlace_mem req hfchain hlen
    obtain ⟨l₁, l₂, rfl⟩ := List.append_of_mem hp
    have hpr : p ≠ req := by
      rintro rfl
      exact hreq hp
    refine ⟨(s.filled req c).linkBehind req p, l₁ ++ p :: req :: l₂,
      by rw [hcurrent, hhead]; simp only [hfind, Option.map_some], fun r hr => ?_, ?_,
      s.filled_buf req c, rfl, ?_, fun m _ => rfl, fun r hr hrr => ?_, ?_⟩
    · have hfill := s.filled_request req r c
      rw [if_neg hr, if_neg hr] at hfill
      by_cases hrp : r = p
      · subst hrp
        simpa [linkBehind, setRequest, hr] using hfill
      · simpa [linkBehind, setRequest, hr, hrp] using hfill
    · have hfill := s.filled_request req req c
      simpa [linkBehind, setRequest, hpr.symm] using hfill
    · rw [linkBehind, next_setRequest, next_setRequest]
      show Lib.Chain _ ((s.filled req c).current c.major) _
      rw [hcurrent, hhead]
      exact hfchain.insert hnodup hreq
    · have hrp : r ≠ p := by
        rintro rfl
        exact hr hp
      simpa [linkBehind, setRequest, hrr, hrp] using hsame r hrr
    · have hperm : (l₁ ++ [p] ++ req :: l₂).Perm (req :: (l₁ ++ [p] ++ l₂)) := List.perm_middle
      simpa using hperm

section linking

variable {s₁ : Dev T B} {req m r : Nat} {l' : List Nat}

omit [DecidableEq T] [DecidableEq B] in
/-- The queues when a request has come to the queue of major `M`. -/
theorem mem_linked {M : Nat} (hperm : l'.Perm (req :: q M)) :
    r ∈ Function.update q M l' m ↔ (m = M ∧ r = req) ∨ r ∈ q m := by
  by_cases hm : m = M
  · subst hm
    rw [Function.update_self, hperm.mem_iff, List.mem_cons]
    simp
  · rw [Function.update_of_ne hm]
    simp [hm]

omit [DecidableEq T] [DecidableEq B] in
/-- The request is for the buffer that its call has locked, and for no other request's. -/
theorem Queues.linked (hq : s.Queues q) (hc : s.Calls q) (hin : s.calls t = some (.fill req, c))
    (hl : s.Linked s₁ req c (q c.major) l') (hslot : req < nrRequest) (hfree : ∀ m, req ∉ q m) :
    s₁.Queues (Function.update q c.major l') := by
  have hne : ∀ {m r}, r ∈ q m → r ≠ req := by
    rintro m r hr rfl
    exact hfree m hr
  refine ⟨fun m => ?_, fun m => ?_, fun m m' r hr hr' => ?_, fun m r hr => ?_, fun r hr => ?_,
    fun m r hr => ?_⟩
  · by_cases hm : m = c.major
    · rw [hm, Function.update_self]
      exact hl.chain
    · rw [Function.update_of_ne hm, hl.current m hm]
      refine (hq.chain m).congr fun r hr => hl.next r (fun hr' => hm (hq.apart _ _ r hr hr')) (hne hr)
  · by_cases hm : m = c.major
    · rw [hm, Function.update_self]
      exact hl.perm.nodup_iff.mpr (List.nodup_cons.mpr ⟨hfree _, hq.nodup _⟩)
    · rw [Function.update_of_ne hm]
      exact hq.nodup m
  · rcases (mem_linked hl.perm).mp hr with ⟨rfl, rfl⟩ | hr <;>
      rcases (mem_linked hl.perm).mp hr' with ⟨rfl, hrr⟩ | hr'
    · rfl
    · exact absurd hr' (hfree m')
    · exact absurd hrr (hne hr)
    · exact hq.apart m m' r hr hr'
  · rcases (mem_linked hl.perm).mp hr with ⟨-, rfl⟩ | hr
    · exact hslot
    · exact hq.slot m r hr
  · by_cases hrr : r = req
    · subst hrr
      refine ⟨fun _ => ⟨c.major, (mem_linked hl.perm).mpr (.inl ⟨rfl, rfl⟩)⟩, fun _ => ?_⟩
      rw [hl.new.1]
      exact Int.natCast_nonneg _
    · rw [(hl.others r hrr).1, hq.used r hr]
      exact exists_congr fun m => by rw [mem_linked hl.perm]; simp [hrr]
  · rcases (mem_linked hl.perm).mp hr with ⟨rfl, rfl⟩ | hr
    · rw [hl.new.1, hl.new.2]
      refine ⟨(hc.major t _ c hin).symm, c.bh, rfl, ?_, ?_, fun m' r' hr' hbh => ?_⟩
      · rw [(hl.buf _).1]
        exact hc.locked t _ c hin trivial
      · rw [(hl.buf _).2]
      · rcases (mem_linked hl.perm).mp hr' with ⟨-, rfl⟩ | hr'
        · rfl
        · rw [(hl.others r' (hne hr')).2] at hbh
          exact absurd hbh (hc.own t _ c hin trivial m' r' hr')
    · obtain ⟨hmaj, b, hb, hlock, hdev, hone⟩ := hq.transfer m r hr
      rw [(hl.others r (hne hr)).1, (hl.others r (hne hr)).2]
      refine ⟨hmaj, b, hb, by rw [(hl.buf b).1]; exact hlock, by rw [(hl.buf b).2]; exact hdev,
        fun m' r' hr' hbh => ?_⟩
      rcases (mem_linked hl.perm).mp hr' with ⟨-, rfl⟩ | hr'
      · rw [hl.new.2] at hbh
        exact absurd (hb.trans hbh.symm) (hc.own t _ c hin trivial m r hr)
      · rw [(hl.others r' (hne hr')).2] at hbh
        exact hone m' r' hr' hbh

omit [DecidableEq B] in
/-- The call that has made the request no longer holds its lock. -/
theorem Calls.linked (hc : s.Calls q) (hin : s.calls t = some (.fill req, c))
    (hl : s.Linked s₁ req c (q c.major) l') (hfree : ∀ m, req ∉ q m) :
    (s₁.leave t).Calls (Function.update q c.major l') := by
  have hne : ∀ {m r}, r ∈ q m → r ≠ req := by
    rintro m r hr rfl
    exact hfree m hr
  have hback : ∀ {u pc₁ c₁}, (s₁.leave t).calls u = some (pc₁, c₁) → u ≠ t ∧ s.calls u = some (pc₁, c₁) := by
    intro u pc₁ c₁ hu
    rw [← hl.calls]
    exact leave_back hu
  refine ⟨fun u pc₁ c₁ hu => ?_, fun u pc₁ c₁ hu hh => ?_, fun u pc₁ c₁ hu hh m r hr => ?_,
    fun u v pc₁ pc₂ c₁ c₂ hu hv hh hh' heq => ?_, fun u k c₁ hu => ?_, fun u r c₁ hu => ?_,
    fun b hb => ?_⟩
  · show c₁.major = Blk.major (s₁.buf c₁.bh).bDev
    rw [(hl.buf _).2]
    exact hc.major u pc₁ c₁ (hback hu).2
  · show (s₁.buf c₁.bh).bLock = true
    rw [(hl.buf _).1]
    exact hc.locked u pc₁ c₁ (hback hu).2 hh
  · show (s₁.request r).bh ≠ some c₁.bh
    obtain ⟨hut, hu⟩ := hback hu
    rcases (mem_linked hl.perm).mp hr with ⟨-, rfl⟩ | hr
    · rw [hl.new.2]
      intro heq
      exact hut (hc.mutex u t pc₁ _ c₁ c hu hin hh trivial (Option.some.inj heq).symm)
    · rw [(hl.others r (hne hr)).2]
      exact hc.own u pc₁ c₁ hu hh m r hr
  · exact hc.mutex u v pc₁ pc₂ c₁ c₂ (hback hu).2 (hback hv).2 hh hh' heq
  · exact hc.scan u k c₁ (hback hu).2
  · obtain ⟨hut, hu⟩ := hback hu
    have hcpu := (hc.fill t req c hin).1
    exact absurd ((hc.fill u r c₁ hu).1.symm.trans hcpu) fun he => hut (Option.some.inj he)
  · have hb' : (s.buf b).bLock = true := by
      rw [← (hl.buf b).1]
      exact hb
    rcases hc.owned b hb' with ⟨m, r, hr, hbh⟩ | ⟨u, pc₀, c₀, h0, hh, rfl⟩
    · refine .inl ⟨m, r, (mem_linked hl.perm).mpr (.inr hr), ?_⟩
      exact (hl.others r (hne hr)).2.trans hbh
    · by_cases hut : u = t
      · subst hut
        rw [hin] at h0
        cases h0
        exact .inl ⟨c.major, req, (mem_linked hl.perm).mpr (.inl ⟨rfl, rfl⟩), hl.new.2⟩
      · refine .inr ⟨u, pc₀, c₀, ?_, hh, rfl⟩
        simpa [Dev.leave, hl.calls, hut] using h0

/-- A call puts its slot into the queue of its major: the lock passes from the call to the request. -/
theorem Queued.fill (h : s.Queued q) (hin : s.calls t = some (.fill req, c)) :
    ∃ s' q', s.advance t c (.fill req) = some s' ∧ s'.Queued q' ∧
      ∀ b, (s'.buf b).bLock = (s.buf b).bLock := by
  obtain ⟨hq, hc⟩ := h
  obtain ⟨-, hslot, hneg⟩ := hc.fill t req c hin
  have hfree : ∀ m, req ∉ q m := by
    intro m hm
    have hpos := (hq.used req hslot).mpr ⟨m, hm⟩
    omega
  have hlen : (q c.major).length ≤ nrRequest := by
    have hsub : q c.major ⊆ List.range nrRequest :=
      fun r hr => List.mem_range.mpr (hq.slot _ r hr)
    simpa using (List.subperm_of_subset (hq.nodup _) hsub).length_le
  obtain ⟨s₁, l', hadd, hl⟩ :=
    addRequest_linked (c := c) (hq.chain c.major) (hq.nodup _) hlen (hfree _)
  have hqueues := hq.linked hc hin hl hslot hfree
  exact ⟨s₁.leave t, Function.update q c.major l', by simp [advance, hadd],
    ⟨hqueues.keep rfl rfl fun _ _ _ _ _ => ⟨rfl, rfl⟩, hc.linked hin hl hfree⟩, fun b => (hl.buf b).1⟩

end linking

/-! ### Completion -/

omit [DecidableEq T] in
/-- Unlocking the buffer of a request is all that `finish` does. -/
theorem finish_same (s : Dev T B) (uptodate : Bool) (o : Option B) :
    (s.finish uptodate o).request = s.request ∧ (s.finish uptodate o).current = s.current ∧
    (s.finish uptodate o).calls = s.calls ∧ (s.finish uptodate o).cpu = s.cpu := by
  cases o <;> exact ⟨rfl, rfl, rfl, rfl⟩

omit [DecidableEq T] in
theorem endRequest_same (s : Dev T B) (m r : Nat) (uptodate : Bool) :
    (s.endRequest m r uptodate).current = Function.update s.current m (s.request r).next ∧
    (s.endRequest m r uptodate).calls = s.calls ∧ (s.endRequest m r uptodate).cpu = s.cpu := by
  obtain ⟨-, hcur, hcalls, hcpu⟩ := s.finish_same uptodate (s.request r).bh
  refine ⟨?_, hcalls, hcpu⟩
  show Function.update (s.finish uptodate (s.request r).bh).current m (s.request r).next = _
  rw [hcur]

omit [DecidableEq T] in
theorem endRequest_request (s : Dev T B) (m r : Nat) (uptodate : Bool) (x : Nat) :
    ((s.endRequest m r uptodate).request x).dev = (if x = r then -1 else (s.request x).dev) ∧
    ((s.endRequest m r uptodate).request x).bh = (s.request x).bh ∧
    ((s.endRequest m r uptodate).request x).next = (s.request x).next := by
  have hsame := (s.finish_same uptodate (s.request r).bh).1
  by_cases hx : x = r
  · simp [endRequest, setCurrent, setRequest, hsame, hx]
  · simp [endRequest, setCurrent, setRequest, hsame, hx]

omit [DecidableEq T] in
theorem endRequest_buf {m r : Nat} {b : B} (s : Dev T B) (uptodate : Bool)
    (hb : (s.request r).bh = some b) (b' : B) :
    ((s.endRequest m r uptodate).buf b').bLock = (if b' = b then false else (s.buf b').bLock) ∧
    ((s.endRequest m r uptodate).buf b').bDev = (s.buf b').bDev := by
  by_cases hbb : b' = b
  · simp [endRequest, setCurrent, setRequest, finish, setLock, setBuf, hb, hbb]
  · simp [endRequest, setCurrent, setRequest, finish, setLock, setBuf, hb, hbb]

section completion

variable {m r : Nat} {l : List Nat} {b : B}

omit [DecidableEq T] [DecidableEq B] in
/-- The queues when the first request of one has been ended. -/
theorem Queues.mem_completed (hq : s.Queues q) (hl : q m = r :: l) {m' x : Nat} :
    x ∈ Function.update q m l m' ↔ x ≠ r ∧ x ∈ q m' := by
  have hr : r ∈ q m := by
    rw [hl]
    exact List.mem_cons_self
  have hnodup := hq.nodup m
  rw [hl, List.nodup_cons] at hnodup
  by_cases hm : m' = m
  · subst hm
    rw [Function.update_self, hl, List.mem_cons]
    constructor
    · intro hx
      exact ⟨fun he => hnodup.1 (he ▸ hx), .inr hx⟩
    · rintro ⟨hne, hx | hx⟩
      · exact absurd hx hne
      · exact hx
  · rw [Function.update_of_ne hm]
    refine ⟨fun hx => ⟨?_, hx⟩, fun hx => hx.2⟩
    rintro rfl
    exact hm (hq.apart m' m x hx hr)

omit [DecidableEq T] in
theorem Queues.complete (hq : s.Queues q) (hl : q m = r :: l) (hb : (s.request r).bh = some b) (uptodate : Bool) :
    (s.endRequest m r uptodate).Queues (Function.update q m l) := by
  have hr : r ∈ q m := by
    rw [hl]
    exact List.mem_cons_self
  obtain ⟨-, b₀, hb₀, -, -, hone⟩ := hq.transfer m r hr
  obtain rfl : b₀ = b := Option.some.inj (hb₀.symm.trans hb)
  -- the buffer of any other request is another one
  have hother : ∀ {m' x b'}, x ≠ r → x ∈ q m' → (s.request x).bh = some b' → b' ≠ b₀ := by
    rintro m' x b' hne hx hbx rfl
    exact hne (hone m' x hx hbx)
  have hmem : ∀ {m' x}, x ∈ Function.update q m l m' ↔ x ≠ r ∧ x ∈ q m' := hq.mem_completed hl
  refine ⟨fun m' => ?_, fun m' => ?_, fun m₁ m₂ x hx hx' => ?_, fun m' x hx => ?_, fun x hx => ?_,
    fun m' x hx => ?_⟩
  · by_cases hm : m' = m
    · subst hm
      have htail := hq.chain m'
      rw [hl] at htail
      rw [Function.update_self, (endRequest_same s m' r uptodate).1, Function.update_self]
      exact htail.2.congr fun x _ => (endRequest_request s m' r uptodate x).2.2
    · rw [Function.update_of_ne hm, (endRequest_same s m r uptodate).1, Function.update_of_ne hm]
      exact (hq.chain m').congr fun x _ => (endRequest_request s m r uptodate x).2.2
  · by_cases hm : m' = m
    · have hnodup := hq.nodup m
      rw [hl, List.nodup_cons] at hnodup
      rw [hm, Function.update_self]
      exact hnodup.2
    · rw [Function.update_of_ne hm]
      exact hq.nodup m'
  · exact hq.apart m₁ m₂ x (hmem.mp hx).2 (hmem.mp hx').2
  · exact hq.slot m' x (hmem.mp hx).2
  · rw [(endRequest_request s m r uptodate x).1]
    by_cases hxr : x = r
    · rw [if_pos hxr]
      refine ⟨fun h0 => by omega, ?_⟩
      rintro ⟨m', hm'⟩
      exact absurd hxr (hmem.mp hm').1
    · rw [if_neg hxr, hq.used x hx]
      exact exists_congr fun m' => by rw [hmem]; simp [hxr]
  · obtain ⟨hne, hx⟩ := hmem.mp hx
    obtain ⟨hmaj, b', hb', hlock', hdev', hone'⟩ := hq.transfer m' x hx
    rw [(endRequest_request s m r uptodate x).1, if_neg hne, (endRequest_request s m r uptodate x).2.1]
    refine ⟨hmaj, b', hb', ?_, ?_, fun m₁ x' hx' hbh => ?_⟩
    · rw [(endRequest_buf s uptodate hb b').1, if_neg (hother hne hx hb')]
      exact hlock'
    · rw [(endRequest_buf s uptodate hb b').2]
      exact hdev'
    · rw [(endRequest_request s m r uptodate x').2.1] at hbh
      exact hone' m₁ x' (hmem.mp hx').2 hbh

omit [DecidableEq T] in
theorem Calls.complete (hc : s.Calls q) (hq : s.Queues q) (hl : q m = r :: l) (hb : (s.request r).bh = some b)
    (uptodate : Bool) : (s.endRequest m r uptodate).Calls (Function.update q m l) := by
  have hr : r ∈ q m := by
    rw [hl]
    exact List.mem_cons_self
  -- the lock that is dropped is that of no call
  have hcall : ∀ {u pc₁ c₁}, s.calls u = some (pc₁, c₁) → holds pc₁ → c₁.bh ≠ b := by
    rintro u pc₁ c₁ hu hh rfl
    exact hc.own u pc₁ c₁ hu hh m r hr hb
  have hcalls := (endRequest_same s m r uptodate).2.1
  refine ⟨fun u pc₁ c₁ hu => ?_, fun u pc₁ c₁ hu hh => ?_, fun u pc₁ c₁ hu hh m' x hx => ?_,
    by rw [hcalls]; exact hc.mutex, by rw [hcalls]; exact hc.scan, fun u x c₁ hu => ?_, fun b' hb' => ?_⟩
  · rw [(endRequest_buf s uptodate hb _).2]
    exact hc.major u pc₁ c₁ (hcalls ▸ hu)
  · rw [hcalls] at hu
    rw [(endRequest_buf s uptodate hb _).1, if_neg (hcall hu hh)]
    exact hc.locked u pc₁ c₁ hu hh
  · rw [(endRequest_request s m r uptodate x).2.1]
    exact hc.own u pc₁ c₁ (hcalls ▸ hu) hh m' x ((hq.mem_completed hl).mp hx).2
  · obtain ⟨hcpu, hslot, hneg⟩ := hc.fill u x c₁ (hcalls ▸ hu)
    refine ⟨(endRequest_same s m r uptodate).2.2.trans hcpu, hslot, ?_⟩
    rw [(endRequest_request s m r uptodate x).1]
    split <;> omega
  · rw [(endRequest_buf s uptodate hb b').1] at hb'
    split at hb'
    · cases hb'
    next hne =>
      rw [hcalls]
      refine (hc.owned b' hb').imp_left ?_
      rintro ⟨m', x, hx, hbx⟩
      refine ⟨m', x, (hq.mem_completed hl).mpr ⟨?_, hx⟩, ?_⟩
      · rintro rfl
        exact hne (Option.some.inj (hbx.symm.trans hb))
      · rw [(endRequest_request s m r uptodate x).2.1]
        exact hbx

omit [DecidableEq T] in
/-- `end_request` takes the first request off its queue and drops the lock that belongs to it. -/
theorem Queued.complete (h : s.Queued q) (uptodate : Bool) (hcur : s.current m = some r) :
    ∃ l, q m = r :: l ∧ (s.endRequest m r uptodate).Queued (Function.update q m l) := by
  obtain ⟨hq, hc⟩ := h
  have hhead := hq.chain m
  rw [hcur] at hhead
  obtain ⟨l, hl, -⟩ := hhead.of_some
  obtain ⟨-, b, hb, -⟩ := hq.transfer m r (hl ▸ List.mem_cons_self)
  exact ⟨l, hl, hq.complete hl hb uptodate, hc.complete hq hl hb uptodate⟩

end completion

/-! ### The other users -/

omit [DecidableEq T] [DecidableEq B] in
/-- Nothing the queues depend on changes: the links, devices and buffers of the requests, the locks,
the calls. The device of a buffer may change while nobody has it locked and no call is about it. -/
theorem Queued.keep (h : s.Queued q)
    (hreq : ∀ r, (s'.request r).dev = (s.request r).dev ∧ (s'.request r).bh = (s.request r).bh ∧
      (s'.request r).next = (s.request r).next)
    (hcur : s'.current = s.current) (hcalls : s'.calls = s.calls) (hcpu : s'.cpu = s.cpu)
    (hlock : ∀ b, (s'.buf b).bLock = (s.buf b).bLock)
    (hdev : ∀ b, (s'.buf b).bDev = (s.buf b).bDev ∨
      ((s.buf b).bLock = false ∧ ∀ t pc c, s.calls t = some (pc, c) → c.bh ≠ b)) : s'.Queued q := by
  obtain ⟨hq, hc⟩ := h
  refine ⟨⟨fun m => ?_, hq.nodup, hq.apart, hq.slot, fun r hr => ?_, fun m r hr => ?_⟩,
    fun t pc c hin => ?_, fun t pc c hin hh => ?_, fun t pc c hin hh m r hr => ?_, ?_, ?_,
    fun t r c hin => ?_, fun b hb => ?_⟩
  · rw [hcur]
    exact (hq.chain m).congr fun r _ => (hreq r).2.2
  · rw [(hreq r).1]
    exact hq.used r hr
  · obtain ⟨hmaj, b, hb, hl, hd, hone⟩ := hq.transfer m r hr
    rw [(hreq r).1, (hreq r).2.1]
    refine ⟨hmaj, b, hb, (hlock b).trans hl, ?_, fun m' r' hr' hb' => ?_⟩
    · rcases hdev b with hsame | ⟨hfree, -⟩
      · rw [hsame]
        exact hd
      · rw [hl] at hfree
        cases hfree
    · rw [(hreq r').2.1] at hb'
      exact hone m' r' hr' hb'
  · rw [hcalls] at hin
    rcases hdev c.bh with hsame | ⟨-, hno⟩
    · rw [hsame]
      exact hc.major t pc c hin
    · exact absurd rfl (hno t pc c hin)
  · rw [hlock]
    exact hc.locked t pc c (hcalls ▸ hin) hh
  · rw [(hreq r).2.1]
    exact hc.own t pc c (hcalls ▸ hin) hh m r hr
  · rw [hcalls]
    exact hc.mutex
  · rw [hcalls]
    exact hc.scan
  · rw [hcpu, (hreq r).1]
    exact hc.fill t r c (hcalls ▸ hin)
  · rw [hlock] at hb
    rw [hcalls]
    refine (hc.owned b hb).imp_left ?_
    rintro ⟨m, r, hr, hbh⟩
    exact ⟨m, r, hr, (hreq r).2.1.trans hbh⟩

omit [DecidableEq T] [DecidableEq B] in
/-- A new call is about a buffer whose major has a driver, and holds nothing. -/
theorem llRwBlock_some {rw_ : Rw} {bh : B} (h : s.llRwBlock rw_ bh = some c) :
    c.bh = bh ∧ c.major = major (s.buf bh).bDev := by
  simp only [llRwBlock] at h
  split at h
  · cases h
  · split at h
    · cases h
    · cases h
      exact ⟨rfl, rfl⟩

omit [DecidableEq B] in
theorem Queued.call (h : s.Queued q) {rw_ : Rw} {bh : B} (hcpu : s.cpu = none)
    (hidle : s.calls t = none) (hcall : s.llRwBlock rw_ bh = some c) : (s.goOn t .lock c).Queued q := by
  obtain ⟨hq, hc⟩ := h
  obtain ⟨hbh, hmaj⟩ := llRwBlock_some hcall
  have hheld : ∀ {u pc₁ c₁}, (s.goOn t .lock c).calls u = some (pc₁, c₁) → holds pc₁ →
      s.calls u = some (pc₁, c₁) := by
    intro u pc₁ c₁ hu hh
    rcases goOn_back hu with ⟨-, rfl, -⟩ | ⟨-, hu⟩
    · exact absurd hh id
    · exact hu
  refine ⟨hq.keep rfl rfl fun _ _ _ _ _ => ⟨rfl, rfl⟩, fun u pc₁ c₁ hu => ?_,
    fun u pc₁ c₁ hu hh => hc.locked u pc₁ c₁ (hheld hu hh) hh,
    fun u pc₁ c₁ hu hh => hc.own u pc₁ c₁ (hheld hu hh) hh,
    fun u v pc₁ pc₂ c₁ c₂ hu hv hh hh' =>
      hc.mutex u v pc₁ pc₂ c₁ c₂ (hheld hu hh) (hheld hv hh') hh hh',
    fun u n c₁ hu => hc.scan u n c₁ (hheld hu trivial), fun u r c₁ hu => ?_, fun b hb => ?_⟩
  · rcases goOn_back hu with ⟨-, -, rfl⟩ | ⟨-, hu⟩
    · rw [hmaj, hbh]
      rfl
    · exact hc.major u pc₁ c₁ hu
  · have hcpu' := (hc.fill u r c₁ (hheld hu trivial)).1
    rw [hcpu] at hcpu'
    cases hcpu'
  · refine (hc.owned b hb).imp_right ?_
    rintro ⟨u, pc₀, c₀, h0, hh, rfl⟩
    refine ⟨u, pc₀, c₀, ?_, hh, rfl⟩
    have hut : u ≠ t := by
      rintro rfl
      rw [hidle] at h0
      cases h0
    simpa [goOn, hut] using h0

/-- A task goes on inside `ll_rw_block`. -/
theorem Queued.goesOn (h : s.Queued q) (hcpu : s.cpu = some t) (hin : s.calls t = some (pc, c))
    (hadv : s.advance t c pc = some s') : ∃ q', s'.Queued q' := by
  have hothers : ∀ u, u ≠ t → s.cpu ≠ some u := by
    intro u hut heq
    exact hut (Option.some.inj (heq.symm.trans hcpu))
  have hqueues : ∀ {s'' : Dev T B}, s''.request = s.request → s''.current = s.current →
      s''.buf = s.buf → s''.Queues q := by
    intro s'' hr hcur hb
    exact h.1.keep hr hcur fun _ _ _ _ _ => by rw [hb]; exact ⟨rfl, rfl⟩
  cases pc with
  | lock =>
    simp only [advance] at hadv
    split at hadv
    · cases hadv
      exact ⟨q, hqueues rfl rfl rfl, h.2.move hin rfl Iff.rfl rfl rfl (fun _ hn => by cases hn)
        (fun _ hr => by cases hr) hothers⟩
    next hfree =>
      rw [Bool.not_eq_true] at hfree
      split at hadv
      · cases hadv
        -- locking and unlocking an unlocked buffer leaves it as it was
        refine ⟨q, ?_⟩
        have hsame : (s.setLock c.bh true).setLock c.bh false = s.setLock c.bh false := by
          simp [setLock, setBuf]
        rw [hsame]
        exact h.leave hin hcpu fun _ => hfree
      · cases hadv
        exact ⟨q, h.take hin hcpu hfree (by unfold limit; cases c.cmd <;> decide)⟩
  | scan n =>
    cases n with
    | zero =>
      simp only [advance] at hadv
      split at hadv
      · cases hadv
        exact ⟨q, h.leave hin hcpu fun hh => absurd trivial hh⟩
      · cases hadv
        refine ⟨q, hqueues rfl rfl rfl, h.2.move hin rfl (iff_of_true trivial trivial) rfl rfl (fun n hn => ?_)
          (fun _ hr => by cases hr) hothers⟩
        cases hn
        unfold limit
        cases c.cmd <;> decide
    | succ n =>
      have hn := h.2.scan t (n + 1) c hin
      simp only [advance] at hadv
      split at hadv
      next hneg =>
        cases hadv
        refine ⟨q, hqueues rfl rfl rfl, h.2.move hin rfl (iff_of_true trivial trivial) rfl rfl (fun _ hn => by cases hn)
          (fun r hr => ?_) hothers⟩
        cases hr
        exact ⟨rfl, hn, hneg⟩
      next =>
        cases hadv
        refine ⟨q, hqueues rfl rfl rfl, h.2.move hin rfl (iff_of_true trivial trivial) rfl rfl (fun k hk => ?_)
          (fun _ hr => by cases hr) hothers⟩
        cases hk
        exact Nat.le_of_succ_le hn
  | fill req =>
    obtain ⟨s'', q', hadv', hq', -⟩ := h.fill hin
    cases hadv'.symm.trans hadv
    exact ⟨q', hq'⟩

/-- Every step keeps the queues in order. -/
theorem Queued.step {e : Event T B} (h : s.Queued q) (hst : Step s e s') : ∃ q', s'.Queued q' := by
  cases hst with
  | call hcpu hidle hc => exact ⟨q, h.call hcpu hidle hc⟩
  | resume hcpu hin =>
    rename_i t pc c
    refine ⟨q, h.1.keep rfl rfl fun _ _ _ _ _ => ⟨rfl, rfl⟩, ?_⟩
    refine h.2.move hin rfl Iff.rfl rfl rfl (fun n hn => h.2.scan t n c (hn ▸ hin)) (fun r hr => ?_) ?_
    · have hcpu' := (h.2.fill t r c (hr ▸ hin)).1
      rw [hcpu] at hcpu'
      cases hcpu'
    · intro u _
      rw [hcpu]
      exact fun h => by cases h
  | advance hcpu hin hadv => exact h.goesOn hcpu hin hadv
  | complete hcur =>
    obtain ⟨l, -, hq'⟩ := h.complete _ hcur
    exact ⟨_, hq'⟩
  | driver errors sector nrSectors hcur =>
    rename_i m r
    refine ⟨q, h.keep (fun x => ?_) rfl rfl rfl (fun _ => rfl) fun _ => .inl rfl⟩
    by_cases hx : x = r
    · simp [setRequest, hx]
    · simp [setRequest, hx]
  | touch uptodate dirt =>
    rename_i bh
    refine ⟨q, h.keep (fun _ => ⟨rfl, rfl, rfl⟩) rfl rfl rfl (fun b => ?_) fun b => .inl ?_⟩ <;>
      by_cases hb : b = bh <;> simp [setBuf, hb]
  | reuse dev blocknr hlock hno =>
    rename_i bh
    refine ⟨q, h.keep (fun _ => ⟨rfl, rfl, rfl⟩) rfl rfl rfl (fun b => ?_) fun b => ?_⟩
    · by_cases hb : b = bh <;> simp [setBuf, hb]
    · by_cases hb : b = bh
      · subst hb
        exact .inr ⟨hlock, hno⟩
      · exact .inl (by simp [setBuf, hb])

/-- The lock of a queued request is dropped only when that request is completed. -/
theorem Queued.released {e : Event T B} (h : s.Queued q) (hst : Step s e s') {m r : Nat} {b : B}
    (hr : r ∈ q m) (hb : (s.request r).bh = some b) (hfree : (s'.buf b).bLock = false) :
    s.current m = some r ∧ ∃ uptodate, e = .complete m uptodate := by
  obtain ⟨-, b', hb', hlock, -, hone⟩ := h.1.transfer m r hr
  obtain rfl : b' = b := Option.some.inj (hb'.symm.trans hb)
  -- a step that keeps the lock is not the one
  have hkept : (s'.buf b').bLock = (s.buf b').bLock →
      s.current m = some r ∧ ∃ uptodate, e = .complete m uptodate := by
    intro hsame
    rw [hsame, hlock] at hfree
    cases hfree
  cases hst with
  | call hcpu hidle hc => exact hkept rfl
  | resume hcpu hin => exact hkept rfl
  | advance hcpu hin hadv =>
    rename_i t pc c
    refine hkept ?_
    cases pc with
    | lock =>
      simp only [advance] at hadv
      split at hadv
      · cases hadv
        rfl
      next hopen =>
        have hne : b' ≠ c.bh := by
          rintro rfl
          exact hopen hlock
        split at hadv <;> cases hadv
        · show (((s.setLock c.bh true).setLock c.bh false).buf b').bLock = _
          simp [hne]
        · show ((s.setLock c.bh true).buf b').bLock = _
          simp [hne]
    | scan n =>
      cases n with
      | zero =>
        have hne : b' ≠ c.bh := by
          rintro rfl
          exact h.2.own t _ c hin trivial m r hr hb
        simp only [advance] at hadv
        split at hadv <;> cases hadv
        · show ((s.setLock c.bh false).buf b').bLock = _
          simp [hne]
        · rfl
      | succ n =>
        simp only [advance] at hadv
        split at hadv <;> cases hadv <;> rfl
    | fill req =>
      obtain ⟨s'', q', hadv', -, hsame⟩ := h.fill hin
      cases hadv'.symm.trans hadv
      exact hsame b'
  | @complete m' r' uptodate hcur =>
    have hr' : r' ∈ q m' := by
      have hhead := h.1.chain m'
      rw [hcur] at hhead
      obtain ⟨l, hl, -⟩ := hhead.of_some
      rw [hl]
      exact List.mem_cons_self
    obtain ⟨-, b'', hb'', -⟩ := h.1.transfer m' r' hr'
    rw [(endRequest_buf s uptodate hb'' b').1] at hfree
    split at hfree
    next heq =>
      obtain rfl := hone m' r' hr' (heq ▸ hb'')
      obtain rfl := h.1.apart m m' r' hr hr'
      exact ⟨hcur, uptodate, rfl⟩
    next =>
      rw [hlock] at hfree
      cases hfree
  | driver errors sector nrSectors hcur => exact hkept rfl
  | touch uptodate dirt =>
    rename_i bh
    refine hkept ?_
    by_cases hbb : b' = bh <;> simp [setBuf, hbb]
  | reuse dev blocknr hfree' hno =>
    rename_i bh
    refine hkept ?_
    by_cases hbb : b' = bh <;> simp [setBuf, hbb]

/-! ### What a run reaches -/

theorem Init.run {es : List (Event T B)} (h0 : s.Init) (hrun : Lib.Run Step s es s') :
    ∃ q, s'.Queued q :=
  hrun.inv (I := fun s => ∃ q, s.Queued q) (fun _ _ _ ⟨_, h⟩ hst => h.step hst) ⟨_, h0.queued⟩

omit [DecidableEq T] [DecidableEq B] in
/-- The checks of `INIT_REQUEST` pass. -/
theorem Queued.initRequest_ok (h : s.Queued q) (m : Nat) : ∃ r, s.initRequest m = .ok r := by
  cases hcur : s.current m with
  | none => exact ⟨none, by simp [initRequest, hcur]⟩
  | some r =>
    have hhead := h.1.chain m
    rw [hcur] at hhead
    obtain ⟨l, hl, -⟩ := hhead.of_some
    obtain ⟨hmaj, b, hb, hlock, -⟩ := h.1.transfer m r (hl ▸ List.mem_cons_self)
    exact ⟨some r, by simp [initRequest, hcur, hmaj, hb, hlock]⟩

/-- A task that runs inside `ll_rw_block` can go on: the loop of `add_request` ends. -/
theorem Queued.progress (h : s.Queued q) (hin : s.calls t = some (pc, c)) :
    ∃ s', s.advance t c pc = some s' := by
  cases pc with
  | lock =>
    simp only [advance]
    split
    · exact ⟨_, rfl⟩
    · split <;> exact ⟨_, rfl⟩
  | scan n =>
    cases n <;> simp only [advance] <;> split <;> exact ⟨_, rfl⟩
  | fill req =>
    obtain ⟨s', -, hadv, -⟩ := h.fill hin
    exact ⟨s', hadv⟩

/-- `do_rd_request` does not panic, and ends with an empty queue; all it does are completions. -/
theorem Queued.doRdRequest (rdStart rdLength : Nat) {fuel : Nat} (h : s.Queued q)
    (hfuel : (q 1).length < fuel) :
    ∃ s', Dev.doRdRequest rdStart rdLength fuel s = .ok s' ∧ s'.current 1 = none ∧
      Relation.ReflTransGen (fun a b => ∃ uptodate, Step a (.complete 1 uptodate : Event T B) b) s s' := by
  induction fuel generalizing s q with
  | zero => cases hfuel
  | succ fuel ih =>
    obtain ⟨o, ho⟩ := h.initRequest_ok 1
    cases hcur : s.current 1 with
    | none =>
      refine ⟨s, ?_, hcur, .refl⟩
      simp [Dev.doRdRequest, initRequest, hcur]
    | some r =>
      have hinit : s.initRequest 1 = .ok (some r) := by
        have hro : o = some r := by
          simp only [initRequest, hcur] at ho
          split at ho
          · cases ho
          · split at ho
            · cases ho
              rfl
            · split at ho <;> cases ho
              rfl
        rw [ho, hro]
      obtain ⟨l, hl, hq'⟩ := h.complete (rdFits rdStart rdLength (s.request r)) hcur
      have hlen : (Function.update q 1 l 1).length < fuel := by
        rw [hl, List.length_cons] at hfuel
        rw [Function.update_self]
        exact Nat.lt_of_succ_lt_succ hfuel
      obtain ⟨s', hrun, hnone, hpath⟩ := ih hq' hlen
      refine ⟨s', ?_, hnone, .head ⟨_, .complete hcur⟩ hpath⟩
      simpa only [Dev.doRdRequest, hinit] using hrun

/-- In every state that tasks in `ll_rw_block`, interrupts and the other users of the buffers can
reach there is a list of slots for each major that is exactly its queue. No slot is twice in it, and
each slot is free or in just one of them. A queued request has the major of its queue and a locked
buffer that no other has; only the completion of that request unlocks the buffer. The checks of
`INIT_REQUEST` pass, no call is stuck in `add_request`, and requests for one block do not meet in the
queues if the locked buffers hold different blocks. -/
theorem requests_sound {es : List (Event T B)} (h0 : s.Init) (hrun : Lib.Run Step s es s') :
    ∃ q : Nat → List Nat,
      (∀ m, Lib.Chain (fun r => (s'.request r).next) (s'.current m) (q m) ∧ (q m).Nodup) ∧
      (∀ r < nrRequest, ((s'.request r).dev < 0 ∧ ∀ m, r ∉ q m) ∨
        (0 ≤ (s'.request r).dev ∧ ∃! m, r ∈ q m)) ∧
      (∀ m r, r ∈ q m → r < nrRequest ∧ major (s'.request r).dev = m ∧
        ∃ b, (s'.request r).bh = some b ∧ (s'.buf b).bLock = true ∧
          (∀ m' r', r' ∈ q m' → (s'.request r').bh = some b → r' = r) ∧
          ∀ e s'', Step s' e s'' → (s''.buf b).bLock = false →
            s'.current m = some r ∧ ∃ uptodate, e = .complete m uptodate) ∧
      (∀ m, ∃ r, s'.initRequest m = .ok r) ∧
      (∀ t pc c, s'.calls t = some (pc, c) → ∃ s'', s'.advance t c pc = some s'') ∧
      ((∀ b b', (s'.buf b).bLock = true → (s'.buf b').bLock = true →
          (s'.buf b).bDev = (s'.buf b').bDev → (s'.buf b).bBlocknr = (s'.buf b').bBlocknr → b = b') →
        ∀ m m' r r' b b', r ∈ q m → r' ∈ q m' → (s'.request r).bh = some b →
          (s'.request r').bh = some b' → (s'.buf b).bDev = (s'.buf b').bDev →
          (s'.buf b).bBlocknr = (s'.buf b').bBlocknr → r = r') := by
  obtain ⟨q, h⟩ := h0.run hrun
  refine ⟨q, fun m => ⟨h.1.chain m, h.1.nodup m⟩, fun r hr => ?_, fun m r hr => ?_,
    h.initRequest_ok, fun t pc c hin => h.progress hin, fun hone m m' r r' b b' hr hr' hb hb' hdev hnr => ?_⟩
  · by_cases hneg : (s'.request r).dev < 0
    · refine .inl ⟨hneg, fun m hm => ?_⟩
      have hpos := (h.1.used r hr).mpr ⟨m, hm⟩
      omega
    · obtain ⟨m, hm⟩ := (h.1.used r hr).mp (by omega)
      exact .inr ⟨by omega, m, hm, fun m' hm' => h.1.apart m' m r hm' hm⟩
  · obtain ⟨hmaj, b, hb, hlock, -, hone⟩ := h.1.transfer m r hr
    exact ⟨h.1.slot m r hr, hmaj, b, hb, hlock, hone, fun e s'' hst hfree => h.released hst hr hb hfree⟩
  · obtain ⟨-, b₁, hb₁, hlock, -⟩ := h.1.transfer m r hr
    obtain ⟨-, b₂, hb₂, hlock', -, huniq⟩ := h.1.transfer m' r' hr'
    obtain rfl := Option.some.inj (hb₁.symm.trans hb)
    obtain rfl := Option.some.inj (hb₂.symm.trans hb')
    obtain rfl := hone b₁ b₂ hlock hlock' hdev hnr
    exact huniq m r hr hb₁

/-- A hard disk, and buffers for the blocks of its first partition. -/
def idleDisk : Dev Nat Nat where
  buf b := ⟨0x301, b + 1, false, false, false⟩
  request _ := ⟨-1, .read, 0, 0, 0, none, none⟩
  current _ := none
  requestFn m := m == 3
  calls _ := none
  cpu := none

/-- The task `t` reads the buffer `b`, up to `lock_buffer`. -/
def reads (s : Dev Nat Nat) (t b : Nat) : Dev Nat Nat := s.goOn t .lock ⟨3, .read, false, b⟩

/-- The task that runs goes on. -/
def on (s : Dev Nat Nat) : Dev Nat Nat :=
  match s.cpu.bind fun t => (s.calls t).bind fun c => s.advance t c.2 c.1 with
  | none => s
  | some s' => s'

theorem run_on {es : List (Event Nat Nat)} {s s' : Dev Nat Nat} {t : Nat} {pc : Pc} {c : Call Nat}
    (hrun : Lib.Run Step idleDisk es s) (hcpu : s.cpu = some t) (hin : s.calls t = some (pc, c))
    (h : s.advance t c pc = some s') : Lib.Run Step idleDisk (es ++ [.advance t]) s.on := by
  have hon : s.on = s' := by
    unfold on
    rw [hcpu, Option.bind_some, hin, Option.bind_some, h]
  rw [hon]
  exact hrun.snoc (.advance hcpu hin h)

/-- Two reads are queued. -/
def busyDisk : Dev Nat Nat := ((idleDisk.reads 5 0).on.on.on.reads 6 7).on.on.on.on

/-- The first one is completed, and its slot is taken by a third one. -/
def thirdRead : Dev Nat Nat := ((busyDisk.endRequest 3 31 true).reads 5 9).on.on.on

theorem requests_sound_reads : ∃ q : Nat → List Nat, q 3 = [30, 31] ∧
    Lib.Chain (fun r => (thirdRead.request r).next) (thirdRead.current 3) (q 3) ∧ (q 3).Nodup := by
  have hcall : Step idleDisk (.call 5 .read 0) (idleDisk.reads 5 0) := .call rfl rfl rfl
  have hread := run_on (run_on (run_on (Lib.Run.snoc .nil hcall) rfl rfl rfl) rfl rfl rfl) rfl rfl rfl
  have hcall' : Step (idleDisk.reads 5 0).on.on.on (.call 6 .read 7) ((idleDisk.reads 5 0).on.on.on.reads 6 7) :=
    .call rfl rfl rfl
  have hread' : ∃ es, Lib.Run Step idleDisk es busyDisk :=
    ⟨_, run_on (run_on (run_on (run_on (hread.snoc hcall') rfl rfl rfl) rfl rfl rfl) rfl rfl rfl) rfl rfl rfl⟩
  obtain ⟨es, hbusy⟩ := hread'
  have hcomplete : Step busyDisk (.complete 3 true) (busyDisk.endRequest 3 31 true) := .complete rfl
  have hcall'' : Step (busyDisk.endRequest 3 31 true) (.call 5 .read 9) ((busyDisk.endRequest 3 31 true).reads 5 9) :=
    .call rfl rfl rfl
  have hrun := run_on (run_on (run_on ((hbusy.snoc hcomplete).snoc hcall'') rfl rfl rfl) rfl rfl rfl) rfl rfl rfl
  obtain ⟨q, hq, -⟩ := requests_sound (s := idleDisk) ⟨fun _ _ => Int.negSucc_lt_zero 0, fun _ => rfl,
    fun _ => rfl, fun _ => rfl, rfl⟩ hrun
  have hchain : Lib.Chain (fun r => (thirdRead.request r).next) (thirdRead.current 3) [30, 31] := ⟨rfl, rfl, rfl⟩
  exact ⟨q, (hq 3).1.unique hchain, hq 3⟩

end Dev

end Linux011.Blk
