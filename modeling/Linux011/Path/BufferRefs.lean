import Linux011.Path.LinkRefs

/-!
# The buffers of the directory calls

What the calls of `fs/namei.c` do to `b_count`, whatever the disk holds. Some turns keep a buffer for good, one
releases a buffer that has been released already, and some follow a `NULL` buffer. A call without such a turn
releases what it takes, and not more.
-/

namespace Linux011.Path

open Linux011.Fs Linux011.Lib

/-! ## What goes wrong -/

/-- A turn after which nobody releases the buffer. -/
def Log.Keeps (L : Log) (k : Key) : Prop :=
  (∃ sb s, (Turn.free k.1 sb k.2, s) ∈ L ∧ s.bufs k ≠ 0) ∨
    ∃ i s, (Turn.header k.1 i k.2, s) ∈ L ∧ ¬ (Turn.header k.1 i k.2).Safe s

/-- After a hole in a directory the buffer is released again. -/
def Log.Repeats (L : Log) (k : Key) : Prop :=
  ∃ s, (Turn.further 0, s) ∈ L ∧ (Turn.release k.1 k.2, s) ∈ L

/-- A buffer that is kept is released again, too. -/
def Log.Cancels (L : Log) : Prop := ∃ k, L.Keeps k ∧ L.Repeats k

/-- In the turns `L`, no buffer is released that has only the references of `s`. -/
def Log.Spares (L : Log) (s : State) : Prop :=
  ∀ dev block t, (Turn.release dev block, t) ∈ L → s.bufs (dev, block) < t.bufs (dev, block)

/-- Every reference to a buffer that the call took is released, and no other. -/
structure Kept (s : State) (m : Machine) : Prop where
  bufs : m.state.bufs = s.bufs
  spares : Log.Spares m.log s

/-- The counts since `s`, with the buffers that have been kept, and those that have been released again. -/
structure Accounted (s : State) (L : Log) (c r : Key → Nat) (kept again : Key → Nat) : Prop where
  sum : c + again = r + kept
  keeps : ∀ k, kept k ≠ 0 → L.Keeps k
  repeats : ∀ k, again k ≠ 0 → L.Repeats k
  none : L.Safe ↔ kept = 0 ∧ again = 0
  spares : L.Safe → L.Spares s

/-- `Accounted`, with some kept and some released again. -/
def Accounts (s : State) (L : Log) (c r : Key → Nat) : Prop := ∃ kept again, Accounted s L c r kept again

variable {s : State} {L : Log} {c r kept again : Key → Nat}

theorem Log.Keeps.mono {L' : Log} {k : Key} (h : L.Keeps k) : Log.Keeps (L ++ L') k := by
  rcases h with ⟨sb, t, ht, hne⟩ | ⟨i, t, ht, hbad⟩
  · exact .inl ⟨sb, t, List.mem_append_left _ ht, hne⟩
  · exact .inr ⟨i, t, List.mem_append_left _ ht, hbad⟩

theorem Log.Repeats.mono {L' : Log} {k : Key} (h : L.Repeats k) : Log.Repeats (L ++ L') k := by
  obtain ⟨t, hhole, hrel⟩ := h
  exact ⟨t, List.mem_append_left _ hhole, List.mem_append_left _ hrel⟩

theorem safe_snoc {t : Turn} {u : State} : Log.Safe (L ++ [(t, u)]) ↔ L.Safe ∧ t.Safe u := by
  rw [Log.Safe, List.forall_mem_append, List.forall_mem_singleton]
  rfl

theorem Accounted.count (h : Accounted s L c r kept again) (hsafe : L.Safe) : c = r := by
  obtain ⟨rfl, rfl⟩ := h.none.mp hsafe
  exact h.sum

theorem Accounted.gain (h : Accounted s L c r kept again) (k : Key) :
    Accounted s L (c + ref k) (r + ref k) kept again := by
  refine ⟨?_, h.keeps, h.repeats, h.none, h.spares⟩
  rw [add_right_comm, h.sum, add_right_comm]

/-- A turn that is safe. -/
theorem Accounted.turn {t : Turn} {u : State} (h : Accounted s L c r kept again) (ht : t.Safe u)
    (hspare : L.Safe → ∀ dev block, t = .release dev block → s.bufs (dev, block) < u.bufs (dev, block)) :
    Accounted s (L ++ [(t, u)]) c r kept again := by
  refine ⟨h.sum, fun k hk => (h.keeps k hk).mono, fun k hk => (h.repeats k hk).mono, ?_, fun hsafe => ?_⟩
  · rw [safe_snoc, and_iff_left ht]
    exact h.none
  · have hL := (safe_snoc.mp hsafe).1
    intro dev block v hmem
    rcases List.mem_append.mp hmem with hmem | hmem
    · exact h.spares hL dev block v hmem
    · cases List.mem_singleton.mp hmem
      exact hspare hL dev block rfl

theorem add_ref_ne_zero (f : Key → Nat) (k : Key) : f + ref k ≠ 0 := fun hzero => by
  have hone := congrFun hzero k
  rw [Pi.add_apply, ref_apply, if_pos rfl] at hone
  cases hone

/-- One more of `f` at `k`. -/
theorem ne_zero_of_add_ref {f : Key → Nat} {k k' : Key} (h : (f + ref k) k' ≠ 0) : f k' ≠ 0 ∨ k' = k := by
  rw [Pi.add_apply, ref_apply] at h
  grind

/-- A turn that keeps a buffer. -/
theorem Accounted.keep {t : Turn} {u : State} {k : Key} {c' r' : Key → Nat} (h : Accounted s L c r kept again)
    (hbad : ¬ t.Safe u) (hk : Log.Keeps (L ++ [(t, u)]) k) (hsum : c' + r = c + r' + ref k) :
    Accounted s (L ++ [(t, u)]) c' r' (kept + ref k) again := by
  refine ⟨?_, fun k' hk' => ?_, fun k' hk' => (h.repeats k' hk').mono, ?_, fun hsafe => ?_⟩
  · funext k'
    have hold := congrFun h.sum k'
    have hnew := congrFun hsum k'
    simp only [Pi.add_apply] at *
    omega
  · rcases ne_zero_of_add_ref hk' with hold | rfl
    · exact (h.keeps k' hold).mono
    · exact hk
  · exact iff_of_false (fun hsafe => hbad (safe_snoc.mp hsafe).2) fun hzero => add_ref_ne_zero _ _ hzero.1
  · exact absurd (safe_snoc.mp hsafe).2 hbad

/-- The buffer of a hole is released again. -/
theorem Accounted.hole {u : State} {k : Key} (h : Accounted s L c r kept again) (hne : c k ≠ 0) :
    Accounted s (L ++ [(.further 0, u)] ++ [(.release k.1 k.2, u)]) (c - ref k) r kept (again + ref k) := by
  have hbad : ¬ Log.Safe (L ++ [(.further 0, u)] ++ [(.release k.1 k.2, u)]) :=
    fun hsafe => (safe_snoc.mp (safe_snoc.mp hsafe).1).2 rfl
  refine ⟨?_, fun k' hk' => (h.keeps k' hk').mono.mono, fun k' hk' => ?_, ?_, fun hsafe => absurd hsafe hbad⟩
  · funext k'
    have hold := congrFun h.sum k'
    simp only [Pi.add_apply, Pi.sub_apply, ref_apply] at *
    grind
  · rcases ne_zero_of_add_ref hk' with hold | rfl
    · exact (h.repeats k' hold).mono.mono
    · exact ⟨u, by simp, by simp⟩
  · exact iff_of_false hbad fun hzero => add_ref_ne_zero _ _ hzero.2

theorem Accounted.loss {u : State} {k : Key} (h : Accounted s L c (r + ref k) kept again) (hne : c k ≠ 0)
    (hu : u.bufs = c) (hfloor : s.bufs ≤ r) :
    Accounted s (L ++ [(.release k.1 k.2, u)]) (c - ref k) r kept again := by
  have hsum : c - ref k + again = r + kept := by
    funext k'
    have hold := congrFun h.sum k'
    simp only [Pi.add_apply, Pi.sub_apply, ref_apply] at *
    grind
  have hturn := h.turn (t := .release k.1 k.2) (u := u) trivial fun hsafe dev block heq => by
    cases heq
    rw [hu, h.count hsafe, Pi.add_apply, ref_apply, if_pos rfl]
    exact Nat.lt_succ_of_le (hfloor k)
  exact ⟨hsum, hturn.keeps, hturn.repeats, hturn.none, hturn.spares⟩

/-! ## The books -/

/-- The references at the start of a call. -/
def startRefs (s : State) : Ref → Nat
  | .inode i => (s.inode i).iCount
  | .buffer dev block => s.bufs (dev, block)

/-- The references to buffers that are not of the call. -/
def othersRefs (s : State) : Ref → Nat
  | .inode _ => 0
  | .buffer dev block => s.bufs (dev, block)

theorem watch_accounts (s : State) : Watch (Accounts s) (othersRefs s) where
  gain := by
    rintro L c r k ⟨kept, again, h⟩
    exact ⟨kept, again, h.gain k⟩
  loss := by
    rintro L t r dev block hfloor ⟨kept, again, h⟩ hne
    exact ⟨kept, again, h.loss (k := (dev, block)) hne rfl hfloor⟩
  turn := by
    rintro L u r t ⟨kept, again, h⟩ hrel ht
    exact ⟨kept, again, h.turn ht fun _ dev block heq => absurd heq (hrel dev block)⟩
  leak := by
    rintro L u r dev k block ⟨kept, again, h⟩ hne
    refine ⟨_, again, h.keep (k := (dev, block)) (fun hsafe => hne hsafe.1) (.inl ⟨k, u, by simp, hne⟩) ?_⟩
    exact add_right_comm _ _ _
  header := by
    rintro L u r dev i block ⟨kept, again, h⟩ hbad
    refine ⟨_, again, h.keep (k := (dev, block)) hbad (.inr ⟨i, u, by simp, hbad⟩) ?_⟩
    exact (add_assoc _ _ _).symm
  again := by
    rintro L u r dev block ⟨kept, again, h⟩ hne
    exact ⟨kept, _, h.hole (k := (dev, block)) hne⟩

theorem balanced_start (s : State) :
    Balanced (Accounts s) s.current s.file (startRefs s + 0) ⟨s, []⟩ := by
  refine ⟨rfl, rfl, fun _ => rfl, 0, 0, rfl, fun _ hk => absurd rfl hk, fun _ hk => absurd rfl hk, ?_, ?_⟩
  · exact iff_of_true (fun _ hmem => absurd hmem List.not_mem_nil) ⟨rfl, rfl⟩
  · exact fun _ _ _ _ hmem => absurd hmem List.not_mem_nil

/-- What the turns of a call say about its buffers. -/
def Told {α : Type} (s : State) : EStateM.Result Stop Machine α → Prop
  | .ok _ m => (Log.Safe m.log → Kept s m) ∧ (Kept s m → Log.Safe m.log ∨ Log.Cancels m.log)
  | .error e m => Log.Safe m.log → e ≠ .nullBuffer ∧ e ≠ .panic freeBuffer

/-- The books at the end of a call that gives out no buffer. -/
theorem told_of_moves {α : Type} {x : Call α} {out : α → Ref → Nat}
    (hx : Moves (ledger (Accounts s) (othersRefs s) s.current s.file) 0 x out) (hout : ∀ a, bufRefs (out a) = 0) :
    Told s (x ⟨s, []⟩) := by
  have hfloor : othersRefs s ≤ startRefs s := fun r => by
    cases r with
    | inode i => exact Nat.zero_le _
    | buffer dev block => exact le_rfl
  have hends := hx.ends hfloor (balanced_start s)
  unfold Ends at hends
  cases hrun : x ⟨s, []⟩ with
  | ok a m =>
    rw [hrun] at hends
    obtain ⟨kept, again, h⟩ := hends.buffers
    rw [bufRefs_add, hout, add_zero] at h
    have hstart : bufRefs (startRefs s) = s.bufs := rfl
    rw [hstart] at h
    refine ⟨fun hsafe => ⟨h.count hsafe, h.spares hsafe⟩, fun hkept => ?_⟩
    have hsame : again = kept := by
      have hsum := h.sum
      rw [hkept.bufs] at hsum
      exact add_left_cancel hsum
    by_cases hzero : ∃ k, kept k ≠ 0
    · -- what is kept has been released again
      obtain ⟨k, hk⟩ := hzero
      exact .inr ⟨k, h.keeps k hk, h.repeats k (hsame ▸ hk)⟩
    · have hkept : kept = 0 := funext fun k => not_not.mp fun hk => hzero ⟨k, hk⟩
      exact .inl (h.none.mpr ⟨hkept, hsame.trans hkept⟩)
  | error e m =>
    rw [hrun] at hends
    refine fun hsafe => ⟨fun heq => hends.null heq hsafe, fun heq => ?_⟩
    rcases hends.buffer heq with hbad | ⟨L, t, r, dev, block, -, ⟨kept, again, h⟩, hzero, hL⟩
    · exact hbad hsafe
    · rw [hL, safe_snoc] at hsafe
      have hcount := congrFun (h.count hsafe.1) (dev, block)
      rw [hzero, Pi.add_apply, ref_apply, if_pos rfl] at hcount
      cases hcount

/-! ## The calls -/

/-- The calls of `fs/namei.c`. -/
inductive DirCall where
  | namei (path : Name)
  | openNamei (path : Name) (flag mode : Nat)
  | mknod (filename : Name) (mode dev : Nat)
  | mkdir (pathname : Name) (mode : Nat)
  | rmdir (name : Name)
  | unlink (name : Name)
  | link (oldname newname : Name)

namespace DirCall

def Value : DirCall → Type
  | namei _ => Option Nat
  | openNamei _ _ _ => Except Int Nat
  | mknod _ _ _ | mkdir _ _ | rmdir _ | unlink _ | link _ _ => Int

def run (fuel : Nat) : (c : DirCall) → Call c.Value
  | namei path => Path.namei fuel path
  | openNamei path flag mode => Path.openNamei fuel path flag mode
  | mknod filename mode dev => sysMknod fuel filename mode dev
  | mkdir pathname mode => sysMkdir fuel pathname mode
  | rmdir name => sysRmdir fuel name
  | unlink name => sysUnlink fuel name
  | link oldname newname => sysLink fuel oldname newname

end DirCall

theorem bufRefs_optRef (o : Option Nat) : bufRefs (optRef o) = 0 := by
  cases o with
  | none => rfl
  | some i => exact bufRefs_inode i

theorem bufRefs_openRef (r : Except Int Nat) : bufRefs (openRef r) = 0 := by
  cases r with
  | error e => rfl
  | ok i => exact bufRefs_inode i

/-- A call that returns has released what it took, and no more, and follows no `NULL` buffer, if all its turns
were safe. If one was not, that can only be missed where a buffer was kept once too often and released once too
often. -/
theorem dirCall_buffers (fuel : Nat) (c : DirCall) (s : State) : Told s (c.run fuel ⟨s, []⟩) := by
  have W := watch_accounts s
  cases c with
  | namei path => exact told_of_moves (moves_namei W.tally fuel path) bufRefs_optRef
  | openNamei path flag mode => exact told_of_moves (moves_openNamei W.tally fuel path flag mode) bufRefs_openRef
  | mknod filename mode dev => exact told_of_moves (moves_sysMknod W fuel filename mode dev) fun _ => rfl
  | mkdir pathname mode => exact told_of_moves (moves_sysMkdir W fuel pathname mode) fun _ => rfl
  | rmdir name => exact told_of_moves (moves_sysRmdir W fuel name) fun _ => rfl
  | unlink name => exact told_of_moves (moves_sysUnlink W fuel name) fun _ => rfl
  | link oldname newname => exact told_of_moves (moves_sysLink W fuel oldname newname) fun _ => rfl

/-- A root directory of 200 entries, of which the first 64 have a block. -/
def sparseRoot : State where
  cache := fun _ => ⟨fun _ => none, fun _ _ => 0, fun _ => true, fun _ _ => 0⟩
  superBlock := fun _ => ⟨⟨64, 100, 1, 1, 5⟩, 0x301, none, fun _ => true, fun _ => true⟩
  inode := fun i =>
    if i = 0 then { MInode.zero with
      iMode := 0x41ED, iNlinks := 2, iCount := 2, iSize := 3200, iDev := 0x301, iNum := 1
      iZone := fun k => if k = 0 then 5 else 0 }
    else MInode.zero
  lastInode := 0
  file := fun _ => ⟨0, 0, 0, none, 0⟩
  current := ⟨some 0, some 0, 0, 0, 0, 0, 0, false, -1, 0, fun _ => none, 0⟩
  ttyPgrp := fun _ => 0
  rootDev := 0x301
  now := 0
  floppyChange := fun _ => false

/-- The search goes on behind the first block. -/
theorem namei_follows_null : ∃ m, DirCall.run 1 (.namei [121]) ⟨sparseRoot, []⟩ = .error .nullBuffer m := by
  have hrun : (match namei 1 [121] ⟨sparseRoot, []⟩ with
      | .ok _ _ => false
      | .error e _ => decide (e = .nullBuffer)) = true := by decide +kernel
  show ∃ m, namei 1 [121] ⟨sparseRoot, []⟩ = .error .nullBuffer m
  cases hx : namei 1 [121] ⟨sparseRoot, []⟩ with
  | ok v m =>
    rw [hx] at hrun
    cases hrun
  | error e m =>
    rw [hx] at hrun
    obtain rfl := of_decide_eq_true hrun
    exact ⟨m, rfl⟩

end Linux011.Path
