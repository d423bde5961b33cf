import Linux011.Path.InodeRefs

/-!
# References in `namei.c`

The functions of `fs/namei.c` up to `open_namei`. `find_entry` may exchange the directory it was given a
reference to.
-/

namespace Linux011.Path

open Linux011.Fs Linux011.Lib

variable {K : Log → (Key → Nat) → (Key → Nat) → Prop} {floor : Ref → Nat} {T : Task}
  {F : Nat → File Nat}

/-- The buffer of an entry, if there is one. -/
def entryRef : Option DirEntry → Ref → Nat
  | none => 0
  | some de => ref (.buffer de.dev de.block)

/-- The buffer that a loop over a directory goes on with. -/
def placeRef (dev : Nat) : Option (Nat × Nat) → Ref → Nat
  | none => 0
  | some (b, _) => ref (.buffer dev b)

variable (W : Tally K floor)

include W

/-! ## `find_entry` -/

/-- The reference to the directory is exchanged for one to the directory that is looked at. -/
theorem moves_dotDot (dir : Nat) (name : Name) :
    Moves (ledger K floor T F) (ref (.inode dir)) (dotDot dir name)
      fun p => ref (.inode p.1) := by
  unfold dotDot
  split
  · refine moves_look fun s => ?_
    split
    · exact Moves.ret rfl
    · split
      · split
        · exact moves_stop (Or.inr rfl)
        · split
          · exact Moves.ret rfl
          · refine (moves_iput W dir).bind fun _ => ?_
            exact (moves_addCount _).bind fun _ => Moves.ret rfl
      · exact Moves.ret rfl
  · exact Moves.ret rfl

/-- A block number that `bmap` gave is read, or the turn to it was not safe with so many entries left. -/
theorem spec_breadMapped (dev block left : Nat) :
    Spec (ledger K floor T F) (fun m => Turn.Safe m.state (.next dev block left)) 0
      (breadMapped dev block) (fun got => bufRef got dev block)
      fun got _ => got = true ∨ left ≤ 64 := by
  unfold breadMapped
  split
  · next hzero => exact Spec.ret (fun m hm => Or.inr (hm.resolve_right fun h => h.1 hzero)) rfl
  · refine (spec_bread W dev block).conseq (fun _ => id) ?_
    rintro got m ⟨m₀, c, ⟨hsafe, hfail⟩, rfl⟩
    cases got with
    | true => exact Or.inl rfl
    | false => exact Or.inr (hsafe.resolve_right fun h => hfail rfl h.2)

theorem moves_findBlock (dir dev i left b k : Nat) :
    Moves (ledger K floor T F) (ref (.buffer dev b)) (findBlock dir dev i left b k)
      (placeRef dev) := by
  unfold findBlock
  split
  · exact Moves.ret rfl
  · refine (moves_brelse W dev b).bind fun _ => (moves_bmapCreate W false dir _).skip fun block => ?_
    refine moves_turn W trivial ?_ ?_
    · refine (spec_breadMapped W dev block left).bind fun got => ?_
      cases got with
      | true => exact Spec.ret (fun _ _ => trivial) rfl
      | false =>
        rw [if_neg (by decide)]
        split
        · exact Spec.ret (fun _ _ => trivial) rfl
        · next hleft => exact Spec.absurd fun r m h _ => h.elim (fun h => by cases h) hleft
    · intro m hbad
      rw [Turn.Safe, not_or, not_and] at hbad
      obtain ⟨hleft, hread⟩ := hbad
      by_cases hzero : block = 0
      · refine ⟨m, rfl, ?_⟩
        rw [breadMapped, if_pos hzero]
        show (if left ≤ 64 then pure none else throw Stop.nullBuffer : Call (Option (Nat × Nat))) m = _
        rw [if_neg hleft]
        rfl
      · obtain ⟨c, hc⟩ := bread_fails (hread hzero)
        refine ⟨m.setCache dev c, rfl, ?_⟩
        rw [breadMapped, if_neg hzero]
        show EStateM.bind (bread dev block) _ m = _
        rw [EStateM.bind, hc]
        show (if left ≤ 64 then pure none else throw Stop.nullBuffer : Call (Option (Nat × Nat))) _ = _
        rw [if_neg hleft]
        rfl

theorem moves_findLoop (dir dev : Nat) (name : Name) (left : Nat) :
    ∀ i b k, Moves (ledger K floor T F) (ref (.buffer dev b)) (findLoop dir dev name left i b k)
      entryRef := by
  induction left with
  | zero => exact fun i b k => (moves_brelse W dev b).bind fun _ => Moves.ret rfl
  | succ left ih =>
    intro i b k
    refine (moves_findBlock W dir dev i _ b k).bind fun place => ?_
    cases place with
    | none => exact Moves.ret rfl
    | some place =>
      obtain ⟨b', k'⟩ := place
      refine moves_look fun data => ?_
      split
      · exact Moves.ret rfl
      · exact ih _ b' _

/-- What `find_entry` gives: the directory, and the buffer of the entry. -/
def foundRef (p : Nat × Option DirEntry) : Ref → Nat := ref (.inode p.1) + entryRef p.2

theorem moves_findEntry (dir : Nat) (name : Name) :
    Moves (ledger K floor T F) (ref (.inode dir)) (findEntry dir name) foundRef := by
  refine moves_look fun n => ?_
  simp only
  split
  · exact Moves.ret (add_zero _)
  · refine (moves_dotDot W dir _).bind fun p => ?_
    obtain ⟨dir', name'⟩ := p
    refine moves_look fun n' => ?_
    simp only
    split
    · exact Moves.ret (add_zero _)
    · refine moves_got W rfl ?_ (Moves.ret (add_zero _))
      refine (moves_findLoop W dir' _ _ _ _ _ _).swap rfl fun r => ?_
      exact Moves.ret (add_comm _ _)

/-! ## `add_entry` -/

theorem moves_addBlock (dir dev i b k : Nat) :
    Moves (ledger K floor T F) (ref (.buffer dev b)) (addBlock dir dev i b k)
      (placeRef dev) := by
  unfold addBlock
  split
  · exact Moves.ret rfl
  · refine (moves_brelse W dev b).bind fun _ => (moves_bmapCreate W true dir _).skip fun block => ?_
    split
    · exact Moves.ret rfl
    · refine moves_turn W trivial ?_ ?_
      · refine (spec_bread W dev block).bind fun got => ?_
        cases got with
        | true => exact Spec.ret (fun _ _ => trivial) rfl
        | false =>
          refine Spec.absurd ?_
          rintro r m ⟨m₀, c, ⟨hsafe, hfail⟩, rfl⟩ -
          exact hfail rfl hsafe
      · intro m hbad
        obtain ⟨c, hc⟩ := bread_fails hbad
        refine ⟨m.setCache dev c, rfl, ?_⟩
        show EStateM.bind (bread dev block) _ m = _
        rw [EStateM.bind, hc]
        rfl

omit W in
theorem moves_extend (dir dev i b k : Nat) :
    Moves (ledger K floor T F) 0 (extend dir dev i b k) fun _ => 0 := by
  refine moves_known fun s => ?_
  split
  · refine Spec.skip (Q := fun _ _ => True) ?_ fun _ => Moves.spec (moves_setInode fun _ => rfl)
    refine spec_setCache 0 (fun _ => rfl) (fun m r hm _ hk => ?_) fun _ _ => trivial
    have hcache : s.cache dev = m.state.cache dev := congrArg (State.cache · dev) hm.symm
    rw [bufs_same (by rw [hcache, Cache.set_held]; exact Function.update_eq_self b _)]
    exact hk
  · exact Spec.ret (fun _ _ => trivial) rfl

theorem moves_addLoop (dir dev : Nat) (name : Name) (turns : Nat) :
    ∀ i b k, Moves (ledger K floor T F) (ref (.buffer dev b)) (addLoop dir dev name turns i b k)
      entryRef := by
  induction turns with
  | zero => exact fun i b k => moves_stop (Or.inl rfl)
  | succ turns ih =>
    intro i b k
    refine (moves_addBlock W dir dev i b k).bind fun place => ?_
    cases place with
    | none => exact Moves.ret rfl
    | some place =>
      obtain ⟨b', k'⟩ := place
      refine (moves_extend dir dev i b' k').skip fun _ => moves_look fun data => ?_
      split
      · refine moves_look fun now => skip_setInode (fun _ => rfl) fun _ => ?_
        exact (moves_write dev b' _).skip fun _ => Moves.ret rfl
      · exact ih _ b' _

theorem moves_addEntry (dir : Nat) (name : Name) :
    Moves (ledger K floor T F) 0 (addEntry dir name) entryRef := by
  refine moves_look fun n => ?_
  split
  · exact Moves.ret rfl
  · split
    · exact Moves.ret rfl
    · exact moves_got W (add_zero _) (moves_addLoop W dir _ _ _ _ _ _) (Moves.ret rfl)

omit W in
theorem moves_setEntry (de : DirEntry) (nr : Nat) :
    Moves (ledger K floor T F) 0 (setEntry de nr) fun _ => 0 := moves_write _ _ _

/-! ## Path names -/

/-- `iput(inode); return …;` -/
theorem moves_leave {α : Type} (i : Nat) {a : α} {inp : Ref → Nat} {out : α → Ref → Nat}
    (hinp : inp = ref (.inode i)) (h : out a = 0) :
    Moves (ledger K floor T F) inp (do iput i; return a) out := by
  rw [hinp]
  exact (moves_iput W i).bind fun _ => Moves.ret h

variable (fuel : Nat)

theorem moves_walk (names : List Name) :
    ∀ i, Moves (ledger K floor T F) (ref (.inode i)) (walk fuel names i) optRef := by
  induction names with
  | nil =>
    intro i
    unfold walk
    refine moves_look fun s => ?_
    split
    · exact moves_leave W i rfl (by rfl)
    · exact Moves.ret rfl
  | cons name names ih =>
    intro i
    unfold walk
    refine moves_look fun s => ?_
    split
    · exact moves_leave W i rfl (by rfl)
    · refine (moves_findEntry W i name).bind fun p => ?_
      obtain ⟨dir, found⟩ := p
      cases found with
      | none => exact moves_leave W dir (add_zero _) (by rfl)
      | some de =>
        refine moves_look fun data => moves_look fun n => ?_
        refine (moves_brelse W _ _).give _ (add_comm _ _) fun _ => (moves_iput W dir).bind fun _ => ?_
        refine (moves_iget W fuel _ _).bind fun o => ?_
        cases o with
        | none => exact Moves.ret rfl
        | some i' => exact ih i'

theorem moves_getDir (path : Name) :
    Moves (ledger K floor T F) 0 (getDir fuel path) optRef := by
  refine moves_look fun s => ?_
  split
  · exact moves_kpanic (by decide)
  · split
    · exact moves_kpanic (by decide)
    · split
      · exact moves_kpanic (by decide)
      · split
        · exact moves_kpanic (by decide)
        · split
          · exact Moves.ret rfl
          · exact (moves_addCount _).bind fun _ => moves_walk W fuel _ _

/-- The directory that `dir_namei` gives. -/
def dirRef : Option (Nat × Name) → Ref → Nat
  | none => 0
  | some (dir, _) => ref (.inode dir)

theorem moves_dirNamei (path : Name) :
    Moves (ledger K floor T F) 0 (dirNamei fuel path) dirRef := by
  refine (moves_getDir W fuel path).bind fun o => ?_
  cases o with
  | none => exact Moves.ret rfl
  | some dir => exact Moves.ret rfl

theorem moves_namei (path : Name) :
    Moves (ledger K floor T F) 0 (namei fuel path) optRef := by
  refine (moves_dirNamei W fuel path).bind fun o => ?_
  cases o with
  | none => exact Moves.ret rfl
  | some p =>
    obtain ⟨dir, basename⟩ := p
    simp only
    split
    · exact Moves.ret rfl
    · refine (moves_findEntry W dir basename).bind fun p => ?_
      obtain ⟨dir, found⟩ := p
      cases found with
      | none => exact moves_leave W dir (add_zero _) (by rfl)
      | some de =>
        refine moves_look fun data => moves_look fun n => ?_
        refine (moves_brelse W _ _).give _ (add_comm _ _) fun _ => (moves_iput W dir).bind fun _ => ?_
        refine (moves_iget W fuel _ _).bind fun o => ?_
        cases o with
        | none => exact Moves.ret rfl
        | some i => exact moves_look fun now => skip_setInode (fun _ => rfl) fun _ => Moves.ret rfl

/-! ## `open_namei` -/

/-- The inode that `open_namei` gives. -/
def openRef : Except Int Nat → Ref → Nat
  | .error _ => 0
  | .ok i => ref (.inode i)

omit fuel in
theorem moves_openCreate (dir : Nat) (basename : Name) (flag mode : Nat) :
    Moves (ledger K floor T F) (ref (.inode dir)) (openCreate dir basename flag mode)
      openRef := by
  unfold openCreate
  split
  · exact moves_leave W dir rfl (by rfl)
  · refine moves_look fun s => ?_
    split
    · exact moves_leave W dir rfl (by rfl)
    · refine (moves_newInode W _).take fun o => ?_
      cases o with
      | none => exact moves_leave W dir (zero_add _) (by rfl)
      | some i =>
        refine skip_setInode (fun _ => rfl) fun _ => (moves_addEntry W dir basename).take fun o => ?_
        cases o with
        | none =>
          refine skip_setInode (fun _ => rfl) fun _ => ?_
          exact (moves_iput W i).give _ (zero_add _).symm fun _ => moves_leave W dir rfl (by rfl)
        | some de =>
          refine moves_look fun n => (moves_setEntry de _).skip fun _ => ?_
          refine (moves_brelse W _ _).give _ rfl fun _ => ?_
          exact (moves_iput W dir).give _ (add_comm _ _) fun _ => Moves.ret rfl

theorem moves_openFound (dir : Nat) (de : DirEntry) (flag : Nat) :
    Moves (ledger K floor T F) (foundRef (dir, some de)) (openFound fuel dir de flag)
      openRef := by
  refine moves_look fun data => moves_look fun n => ?_
  refine (moves_brelse W _ _).give _ (add_comm _ _) fun _ => (moves_iput W dir).bind fun _ => ?_
  split
  · exact Moves.ret rfl
  · refine (moves_iget W fuel _ _).bind fun o => ?_
    cases o with
    | none => exact Moves.ret rfl
    | some i =>
      refine moves_look fun s => ?_
      split
      · exact moves_leave W i rfl (by rfl)
      · refine skip_setInode (fun _ => rfl) fun _ => ?_
        split
        · exact (moves_truncate W i).skip fun _ => Moves.ret rfl
        · exact Moves.ret rfl

theorem moves_openNamei (path : Name) (flag mode : Nat) :
    Moves (ledger K floor T F) 0 (openNamei fuel path flag mode) openRef := by
  refine moves_look fun umask => (moves_dirNamei W fuel path).bind fun o => ?_
  cases o with
  | none => exact Moves.ret rfl
  | some p =>
    obtain ⟨dir, basename⟩ := p
    simp only
    split
    · split
      · exact Moves.ret rfl
      · exact moves_leave W dir rfl (by rfl)
    · refine (moves_findEntry W dir basename).bind fun p => ?_
      obtain ⟨dir, found⟩ := p
      cases found with
      | none => exact (moves_openCreate W dir basename _ _).cast (add_zero _).symm fun _ => rfl
      | some de => exact moves_openFound W fuel dir de _

end Linux011.Path
