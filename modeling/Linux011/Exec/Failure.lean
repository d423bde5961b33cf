import Linux011.Exec.Execve

/-!
# What a failed execve leaves

Until the point of no return `do_execve` only takes things: inodes and buffers, through the functions of the
file system, and pages for the arguments. Every way out gives the inode and the pages back, whatever was copied
before. The one reference that stays is not taken by `do_execve` itself: `iput` of a file that has no links
frees its blocks, and `free_block` keeps the buffer of a block that somebody else has in use.
-/

namespace Linux011.Exec

open Linux011.Lib Linux011.Mm

/-! ## The pages of the arguments -/

/-- The pages of the arguments are taken, and all else is as it was. -/
structure Taken (lo : Nat) (own₀ : Nat → Nat) (mem₀ : Mem) (fs₀ : Seg) (a : Args) : Prop where
  held : Held mem₀ a
  owned : Owned lo own₀ mem₀ a.mem a.page
  fs : a.fs = fs₀

/-- The memory and `fs` are as they were. -/
structure Freed (mem₀ : Mem) (fs₀ : Seg) (a : Args) : Prop where
  memMap : a.mem.memMap = mem₀.memMap
  dir : a.mem.pgDir = mem₀.pgDir
  entry : Mm.entry a.mem = Mm.entry mem₀
  frame : Frame (fun _ => False) mem₀ a.mem
  fs : a.fs = fs₀

variable {lo : Nat} {own₀ : Nat → Nat} {mem₀ : Mem} {fs₀ : Seg}

theorem taken_start (h : Inv lo own₀ mem₀) : Taken lo own₀ mem₀ fs₀ (Args.start mem₀ fs₀) :=
  ⟨laid_start.toHeld, owned_start h, rfl⟩

theorem freed_start : Freed mem₀ fs₀ (Args.start mem₀ fs₀) := ⟨rfl, rfl, rfl, Frame.refl _ _, rfl⟩

/-- The counts when the pages below `k` have been given back. -/
structure Giving (mem₀ mem : Mem) (page : Nat → Option Nat) (k : Nat) (mem' : Mem) : Prop where
  rest : ∃ memMap, mem' = { mem with memMap }
  given : ∀ l f, page l = some f → l < k → mem'.memMap (mapNr f) = mem₀.memMap (mapNr f)
  taken : ∀ l f, page l = some f → k ≤ l → mem'.memMap (mapNr f) = 1
  others : ∀ nr, (∀ l, page l ≠ some (nr + lowMem)) → mem'.memMap nr = mem₀.memMap nr

theorem mapNr_add {f : Nat} (h : lowMem ≤ f) : mapNr f + lowMem = f := Nat.sub_add_cancel h

theorem setCount_memMap {mem : Mem} {nr : Nat} {v : UInt8} :
    (mem.setCount nr v).memMap = Function.update mem.memMap nr v := rfl

theorem Giving.step {a : Args} {k : Nat} {mem' : Mem} (h : Taken lo own₀ mem₀ fs₀ a)
    (hg : Giving mem₀ a.mem a.page k mem') :
    Post (freeArgPage a.page mem' k) (Giving mem₀ a.mem a.page (k + 1)) fun _ => False := by
  unfold freeArgPage
  cases hk : a.page k with
  | none =>
    refine Post.ret ⟨hg.rest, fun l f hl hlt => ?_, fun l f hl hle => hg.taken l f hl (by omega), hg.others⟩
    have hne : l ≠ k := by
      rintro rfl
      rw [hk] at hl
      cases hl
    exact hg.given l f hl (by omega)
  | some f =>
    obtain ⟨-, hlow, -, hzero, -⟩ := h.held.taken k f hk
    obtain ⟨memMap, hmem⟩ := hg.rest
    have hone : mem'.memMap (mapNr f) = 1 := hg.taken k f hk le_rfl
    have hhigh : f < mem'.highMemory := by
      rw [hmem]
      exact (h.owned.main k f hk).2
    -- no other page of the arguments has this number
    have hother : ∀ l g, a.page l = some g → l ≠ k → mapNr g ≠ mapNr f := by
      intro l g hl hne heq
      have hgf : g = f := by rw [← mapNr_add (h.held.taken l g hl).2.1, heq, mapNr_add hlow]
      exact hne (h.held.inj l k f (hgf ▸ hl) hk)
    dsimp only
    rw [freePage_main hlow hhigh (by rw [hone]; decide)]
    refine Post.ret ⟨⟨_, by rw [hmem]; rfl⟩, fun l g hl hlt => ?_, fun l g hl hle => ?_, fun nr hnr => ?_⟩
    · rw [setCount_memMap]
      by_cases hlk : l = k
      · subst hlk
        obtain rfl : f = g := Option.some.inj (hk.symm.trans hl)
        rw [Function.update_self, hone, hzero]
        rfl
      · rw [Function.update_of_ne (hother l g hl hlk)]
        exact hg.given l g hl (by omega)
    · rw [setCount_memMap, Function.update_of_ne (hother l g hl (by omega))]
      exact hg.taken l g hl (by omega)
    · have hne : nr ≠ mapNr f := fun heq => hnr k (by rw [hk, heq, mapNr_add hlow])
      rw [setCount_memMap, Function.update_of_ne hne]
      exact hg.others nr hnr

/-- All pages are given back, and `free_page` does not panic. -/
theorem freeArgPages_spec {a : Args} (h : Taken lo own₀ mem₀ fs₀ a) :
    Post (freeArgPages a.page a.mem) (fun mem => Freed mem₀ fs₀ { a with mem }) fun _ => False := by
  have hstart : Giving mem₀ a.mem a.page 0 a.mem :=
    ⟨⟨_, rfl⟩, fun l f _ hlt => absurd hlt (Nat.not_lt_zero l), fun l f hl _ => (h.held.taken l f hl).2.2.2.2,
      h.held.others⟩
  refine (Post.foldlM_range 32 (fun k _ mem hg => hg.step h) hstart).imp fun mem hg => ?_
  obtain ⟨memMap, hmem⟩ := hg.rest
  have hentry : Mm.entry mem = Mm.entry a.mem := by
    rw [hmem]
    rfl
  refine ⟨funext fun nr => ?_, ?_, hentry.trans h.owned.entry, ?_, h.fs⟩
  · by_cases hpage : ∃ l, a.page l = some (nr + lowMem)
    · obtain ⟨l, hl⟩ := hpage
      have hgiven := hg.given l _ hl (h.held.taken l _ hl).1
      rw [show mapNr (nr + lowMem) = nr from Nat.add_sub_cancel ..] at hgiven
      exact hgiven
    · exact hg.others nr fun l hl => hpage ⟨l, hl⟩
  · rw [← h.owned.dir, hmem]
  · refine h.owned.frame.trans (Frame.of_entry ?_ (fun p _ _ => by rw [hentry]) fun _ _ _ _ _ => ?_)
    · rw [hmem]
      exact ⟨rfl, rfl, rfl⟩
    · rw [hmem]

/-- What the copying leaves, if it does not run out of the array of pages. -/
theorem copyCalls_taken {calls : List Copy} {a : Args} (h : Inv lo own₀ mem₀)
    (hcounted : ∀ call ∈ calls, call.Counted)
    (ha : calls.foldlM Args.copyStrings (Args.start mem₀ fs₀) = .ok a) : Taken lo own₀ mem₀ fs₀ a := by
  obtain ⟨hover, hended⟩ := copyCalls_spec calls hcounted (@laid_start mem₀ fs₀)
  by_cases hruns : Overruns (argTop - ([] : List UInt8).length) calls ∧ 32 ≤ freePages mem₀
  · rw [hover hruns] at ha
    cases ha
  · obtain ⟨a', ha', hheld, hfs, -⟩ := hended hruns
    rw [ha'] at ha
    cases ha
    exact ⟨hheld, copyCalls_owned h ha', hfs⟩

/-! ## The buffers -/

/-- No block is freed while somebody has its buffer. -/
def FreesUnheld (L : Path.Log) : Prop := ∀ dev k block s, (Path.Turn.free dev k block, s) ∈ L → s.bufs (dev, block) = 0

/-- Since the log was `L₀`, the buffers have been taken `d` times more than they were given back, and that is not
at all if no block was freed while somebody had its buffer. -/
def Overheld (L₀ L : Path.Log) (c r : Path.Key → Nat) : Prop :=
  ∃ new d, L = L₀ ++ new ∧ c = r + d ∧ (d = 0 ↔ FreesUnheld new)

theorem freesUnheld_snoc {L : Path.Log} {t : Path.Turn} {s : Path.State} : FreesUnheld (L ++ [(t, s)]) ↔
    FreesUnheld L ∧ ∀ dev k block, t = .free dev k block → s.bufs (dev, block) = 0 := by
  simp only [FreesUnheld, List.mem_append, List.mem_singleton, Prod.mk.injEq]
  grind

theorem tally_overheld (L₀ : Path.Log) : Path.Tally (Overheld L₀) 0 where
  gain := by
    rintro L c r k ⟨new, d, hL, rfl, hd⟩
    exact ⟨new, d, hL, add_right_comm _ _ _, hd⟩
  loss := by
    rintro L s r dev block - ⟨new, d, rfl, hc, hd⟩ -
    refine ⟨new ++ [(.release dev block, s)], d, List.append_assoc .., ?_, ?_⟩
    · rw [hc, add_right_comm]
      exact funext fun key => Nat.add_sub_cancel ..
    · rw [hd, freesUnheld_snoc]
      exact (and_iff_left fun _ _ _ heq => by cases heq).symm
  turn := by
    rintro L s r t ⟨new, d, rfl, hc, hd⟩ - hsafe
    refine ⟨new ++ [(t, s)], d, List.append_assoc .., hc, ?_⟩
    rw [hd, freesUnheld_snoc]
    refine (and_iff_left ?_).symm
    rintro dev k block rfl
    exact hsafe.1
  leak := by
    rintro L s r dev k block ⟨new, d, rfl, hc, hd⟩ hheld
    refine ⟨new ++ [(.free dev k block, s)], d + ref (dev, block), List.append_assoc .., ?_, ?_⟩
    · rw [hc, add_assoc]
    · refine iff_of_false (fun hzero => ?_) fun hfrees => hheld ((freesUnheld_snoc.mp hfrees).2 _ _ _ rfl)
      have hone := congrFun hzero (dev, block)
      rw [Pi.add_apply, Path.ref_apply, if_pos rfl] at hone
      cases hone

/-! ## Ways out -/

/-- The books of the file system. Until the point of no return the rest of the task is not touched. -/
def callBooks (K : Path.Log → (Path.Key → Nat) → (Path.Key → Nat) → Prop) (T : Path.Task)
    (F : Nat → Fs.File Nat) (proc : Process) (last : Option Nat) : Books Halt Caller Path.Ref where
  inv := fun r s => Path.Balanced K T F r s.path ∧ s.proc = proc ∧ s.lastTaskUsedMath = last
  stop := fun _ _ => True
  floor := 0

/-- After an error everything taken has been given back; else `Q` holds. -/
def Leaves {α : Type} (mem₀ : Mem) (fs₀ : Seg) (Q : Args → Prop) (r : Except Int α) (s : Caller) : Prop :=
  match r with
  | .error _ => Freed mem₀ fs₀ s.args
  | .ok _ => Q s.args

/-- The references of a result that is no error. -/
def okRef {α : Type} (out : α → Path.Ref → Nat) : Except Int α → Path.Ref → Nat
  | .error _ => 0
  | .ok a => out a

section

variable {K : Path.Log → (Path.Key → Nat) → (Path.Key → Nat) → Prop} {T : Path.Task} {F : Nat → Fs.File Nat}
  {proc : Process} {last : Option Nat} {α β : Type} {inp mid rest : Path.Ref → Nat} {P Q : Args → Prop}
  {R : β → Caller → Prop} {out : β → Path.Ref → Nat}

/-- A call of the file system, in the middle of `do_execve`. -/
theorem spec_onPath {x : Path.Call α} {out : α → Path.Ref → Nat} (hx : Moves (Path.ledger K 0 T F) inp x out) :
    Spec (callBooks K T F proc last) (fun s => P s.args) inp (onPath x) out fun _ s => P s.args := by
  rintro r hr s hP ⟨hinv, hproc, hlast⟩
  have hends := hx.ends hr hinv
  unfold Ends at hends
  unfold onPath
  cases hs : x s.path with
  | ok a m =>
    rw [hs] at hends
    exact ⟨hP, hends, hproc, hlast⟩
  | error e m => trivial

theorem spec_path {x : Path.Call α} {out' : α → Path.Ref → Nat} {f : α → Call β}
    (hx : Moves (Path.ledger K 0 T F) mid x out') (rest : Path.Ref → Nat) (hinp : mid + rest = inp)
    (hf : ∀ a, Spec (callBooks K T F proc last) (fun s => P s.args) (out' a + rest) (f a) out R) :
    Spec (callBooks K T F proc last) (fun s => P s.args) inp (onPath x >>= f) out R := by
  have hcall : Spec (callBooks K T F proc last) (fun s => P s.args) mid (onPath x) out' fun _ s => P s.args :=
    spec_onPath hx
  have hframe := hcall.frame rest
  rw [hinp] at hframe
  exact hframe.bind hf

theorem spec_look {g : Path.State → α} {f : α → Call β}
    (hf : ∀ a, Spec (callBooks K T F proc last) (fun s => P s.args) inp (f a) out R) :
    Spec (callBooks K T F proc last) (fun s => P s.args) inp (onPath (Path.look g) >>= f) out R := by
  have hlook : Moves (Path.ledger K 0 T F) 0 (Path.look g) fun _ => 0 := fun _ _ _ _ hinv => ⟨trivial, hinv⟩
  refine spec_path hlook inp (zero_add _) fun a => ?_
  rw [zero_add]
  exact hf a

/-- From the label `exec_error1` on. -/
theorem spec_execError1 {retval : Int} {out : α → Path.Ref → Nat} (hP : ∀ a, P a → Taken lo own₀ mem₀ fs₀ a) :
    Spec (callBooks K T F proc last) (fun s => P s.args) 0 (execError1 retval : Call (Except Int α)) (okRef out)
      (Leaves mem₀ fs₀ Q) := by
  refine Spec.known (g := id) (fun _ => rfl) fun s₀ => ?_
  have hfree : Spec (callBooks K T F proc last) (fun s => P s.args ∧ s = s₀) 0
      (onMem fun mem => (freeArgPages s₀.args.page mem).map fun mem => ((), mem)) (fun _ => 0)
      fun _ s => Freed mem₀ fs₀ s.args := by
    rintro r - s ⟨hs, rfl⟩ hinv
    have hpost := freeArgPages_spec (hP _ hs)
    unfold onMem
    dsimp only
    cases hrun : freeArgPages s.args.page s.args.mem with
    | ok mem => exact ⟨hpost.of_ok mem hrun, hinv⟩
    | error e => trivial
  exact hfree.bind fun _ => Spec.ret (fun _ => id) rfl

section

variable (W : Path.Tally K 0)

include W

/-- From the label `exec_error2` on. -/
theorem spec_execError2 {inode : Nat} {retval : Int} {out : α → Path.Ref → Nat}
    (hP : ∀ a, P a → Taken lo own₀ mem₀ fs₀ a) :
    Spec (callBooks K T F proc last) (fun s => P s.args) (ref (.inode inode))
      (execError2 inode retval : Call (Except Int α)) (okRef out) (Leaves mem₀ fs₀ Q) :=
  spec_path (Path.moves_iput W inode) 0 (add_zero _) fun _ => spec_execError1 hP

/-- The references of a file whose first block has been read. -/
def openedRef (inode : Nat) (o : Opened) : Path.Ref → Nat := ref (.buffer o.dev o.block) + ref (.inode inode)

theorem spec_openFile {inode : Nat} (hP : ∀ a, P a → Taken lo own₀ mem₀ fs₀ a) :
    Spec (callBooks K T F proc last) (fun s => P s.args) (ref (.inode inode)) (openFile inode)
      (okRef (openedRef inode)) (Leaves mem₀ fs₀ P) := by
  refine spec_look fun s => ?_
  cases checkInode s inode with
  | error retval => exact spec_execError2 W hP
  | ok ids =>
    refine spec_path (Path.moves_bread W _ _) (ref (.inode inode)) (zero_add _) fun got => ?_
    cases got with
    | true => exact Spec.ret (fun _ => id) rfl
    | false =>
      rw [Path.bufRef, if_neg (by decide), zero_add]
      exact spec_execError2 W hP

omit W in
theorem spec_copyAll {calls : List Copy} (h : Inv lo own₀ mem₀) (hcounted : ∀ call ∈ calls, call.Counted) :
    Spec (callBooks K T F proc last) (fun s => s.args = Args.start mem₀ fs₀) inp (copyAll calls) (fun _ => inp)
      fun _ s => Taken lo own₀ mem₀ fs₀ s.args := by
  rintro r - s hs hinv
  unfold copyAll onArgs
  rw [hs]
  dsimp only
  cases ha : calls.foldlM Args.copyStrings (Args.start mem₀ fs₀) with
  | ok a => exact ⟨copyCalls_taken h hcounted ha, hinv⟩
  | error e => trivial

variable (fuel : Nat) (buf : Nat → UInt8) (filename : CStr) (argv envp : List CStr)

def readyRef (r : Ready) : Path.Ref → Nat := ref (.inode r.inode)

/-- A binary. Its arguments are copied now, if they were not for a script. -/
theorem spec_runBinary {shBang : Bool} {inode : Nat} {o : Opened} {data : Nat → UInt8} {argc : Int}
    (h : Inv lo own₀ mem₀) (hP : ∀ a, P a → Taken lo own₀ mem₀ fs₀ a)
    (hcopy : shBang = false → (∀ a, P a → a = Args.start mem₀ fs₀) ∧ argc = argv.length) :
    Spec (callBooks K T F proc last) (fun s => P s.args) (openedRef inode o)
      (runBinary argv envp shBang inode o data argc) (okRef readyRef) (Leaves mem₀ fs₀ fun _ => True) := by
  refine spec_path (Path.moves_brelse W _ _) (ref (.inode inode)) rfl fun _ => ?_
  rw [zero_add]
  refine spec_look fun n => ?_
  dsimp only
  split
  · exact spec_execError2 W hP
  · split
    · exact spec_execError2 W hP
    · cases shBang with
      | true => exact Spec.ret (fun _ _ => trivial) rfl
      | false =>
        obtain ⟨hstart, rfl⟩ := hcopy rfl
        refine Spec.bind ((spec_copyAll h (programCalls_counted argv envp)).conseq (fun s hs => hstart _ hs)
          fun _ _ => id) fun _ => ?_
        refine Spec.known (g := id) (fun _ => rfl) fun s => ?_
        refine Spec.conseq ?_ (fun _ hs => hs.1) fun _ _ => id
        split
        · exact spec_execError2 W fun _ => id
        · exact Spec.ret (fun _ _ => trivial) rfl

/-- While the name of the interpreter is read, `fs` is the kernel's. -/
def TakenAside (lo : Nat) (own₀ : Nat → Nat) (mem₀ : Mem) (fs₀ : Seg) (a : Args) : Prop :=
  Taken lo own₀ mem₀ fs₀ { a with fs := fs₀ }

omit W in
theorem spec_setFs {fs : Seg} (hQ : ∀ a, P a → Q { a with fs }) :
    Spec (callBooks K T F proc last) (fun s => P s.args) inp (setFs fs) (fun _ => inp) fun _ s => Q s.args :=
  Spec.change fun _ _ _ hs hinv => ⟨hQ _ hs, hinv⟩

/-- A script. Whatever becomes of its interpreter, the script itself has been given back. -/
theorem spec_runScript {restart : Nat → Int → Call (Except Int Ready)} {inode : Nat} {o : Opened}
    {data : Nat → UInt8} (h : Inv lo own₀ mem₀)
    (hrestart : ∀ inode argc, Spec (callBooks K T F proc last) (fun s => Taken lo own₀ mem₀ fs₀ s.args)
      (ref (.inode inode)) (restart inode argc) (okRef readyRef) (Leaves mem₀ fs₀ fun _ => True)) :
    Spec (callBooks K T F proc last) (fun s => s.args = Args.start mem₀ fs₀) (openedRef inode o)
      (runScript fuel buf filename argv envp restart inode o data argv.length) (okRef readyRef)
      (Leaves mem₀ fs₀ fun _ => True) := by
  have hstart : ∀ a, a = Args.start mem₀ fs₀ → Taken lo own₀ mem₀ fs₀ a := by
    rintro a rfl
    exact taken_start h
  refine spec_path (P := fun a => a = Args.start mem₀ fs₀) (Path.moves_brelse W _ _) (ref (.inode inode)) rfl
    fun _ => ?_
  rw [zero_add]
  refine spec_path (P := fun a => a = Args.start mem₀ fs₀) (Path.moves_iput W inode) 0 (add_zero _) fun _ => ?_
  rw [zero_add]
  cases parseLine buf data with
  | none => exact spec_execError1 hstart
  | some line =>
    refine Spec.bind (spec_copyAll h spliceCalls_counted) fun _ => ?_
    refine Spec.known (g := id) (fun _ => rfl) fun s => ?_
    split
    · exact (spec_execError1 fun _ => id).conseq (fun _ hs => hs.1) fun _ _ => id
    · refine Spec.fact (p := s.args.fs = fs₀) ?_ fun hfs => ?_
      · rintro s' ⟨hs, rfl⟩
        exact hs.fs
      rw [hfs]
      refine Spec.conseq ?_ (fun _ hs => hs.1) fun _ _ => id
      refine Spec.bind (spec_setFs (Q := TakenAside lo own₀ mem₀ fs₀) ?_) fun _ => ?_
      · rintro a ⟨hheld, hown, hfs⟩
        exact ⟨⟨hheld.taken, hheld.inj, hheld.others, hheld.high⟩, hown, rfl⟩
      refine spec_path (Path.moves_namei W fuel _) 0 (add_zero _) fun found => ?_
      rw [add_zero]
      cases found with
      | none => exact Spec.bind (spec_setFs fun _ => id) fun _ => spec_execError1 fun _ => id
      | some inode => exact Spec.bind (spec_setFs fun _ => id) fun _ => hrestart inode _

/-- `restart_interp`. The first time the arguments are still to be copied. -/
theorem spec_attempt {restart : Option (Nat → Int → Call (Except Int Ready))} {inode : Nat} {argc : Int}
    (h : Inv lo own₀ mem₀) (hP : ∀ a, P a → Taken lo own₀ mem₀ fs₀ a)
    (hcopy : ∀ f, restart = some f → (∀ a, P a → a = Args.start mem₀ fs₀) ∧ argc = argv.length)
    (hrestart : ∀ f, restart = some f → ∀ inode argc, Spec (callBooks K T F proc last)
      (fun s => Taken lo own₀ mem₀ fs₀ s.args) (ref (.inode inode)) (f inode argc) (okRef readyRef)
      (Leaves mem₀ fs₀ fun _ => True)) :
    Spec (callBooks K T F proc last) (fun s => P s.args) (ref (.inode inode))
      (attempt fuel buf filename argv envp restart inode argc) (okRef readyRef)
      (Leaves mem₀ fs₀ fun _ => True) := by
  refine Spec.bind (spec_openFile W hP) fun r => ?_
  cases r with
  | error retval => exact Spec.ret (fun _ => id) rfl
  | ok o =>
    refine spec_look fun data => ?_
    cases restart with
    | none => exact spec_runBinary W argv envp h hP fun heq => by cases heq
    | some f =>
      obtain ⟨hstart, rfl⟩ := hcopy f rfl
      dsimp only
      split
      · refine Spec.conseq ?_ (fun s hs => hstart s.args hs) fun _ _ => id
        exact spec_runScript W fuel buf filename argv envp h (hrestart f rfl)
      · exact spec_runBinary W argv envp h hP fun _ => ⟨hstart, rfl⟩

/-- `do_execve`, up to the point of no return. -/
theorem spec_prepare (h : Inv lo own₀ mem₀) :
    Spec (callBooks K T F proc last) (fun s => s.args.mem = mem₀ ∧ s.args.fs = fs₀) 0
      (prepare fuel buf filename argv envp) (okRef readyRef) (Leaves mem₀ fs₀ fun _ => True) := by
  have hstart : ∀ a, a = Args.start mem₀ fs₀ → Taken lo own₀ mem₀ fs₀ a := by
    rintro a rfl
    exact taken_start h
  have hclear : Spec (callBooks K T F proc last) (fun s => s.args.mem = mem₀ ∧ s.args.fs = fs₀) 0
      (modify fun s => { s with args := Args.start s.args.mem s.args.fs }) (fun _ => 0)
      fun _ s => s.args = Args.start mem₀ fs₀ := by
    refine Spec.change fun r s _ hs hinv => ?_
    obtain ⟨rfl, rfl⟩ := hs
    exact ⟨rfl, hinv⟩
  refine hclear.bind fun _ => ?_
  refine spec_path (P := fun a => a = Args.start mem₀ fs₀) (Path.moves_namei W fuel _) 0 (add_zero _)
    fun found => ?_
  rw [add_zero]
  cases found with
  | none =>
    refine Spec.ret (fun s hs => ?_) rfl
    show Freed mem₀ fs₀ s.args
    rw [hs]
    exact freed_start
  | some inode =>
    refine spec_attempt W fuel buf filename argv envp h hstart (fun _ _ => ⟨fun _ => id, rfl⟩) fun f hf => ?_
    obtain rfl := Option.some.inj hf
    intro inode argc
    exact spec_attempt W fuel buf filename argv envp h (fun _ => id) (fun _ heq => by cases heq)
      fun _ heq => by cases heq

end

end

/-! ## do_execve -/

/-- What a failed call leaves as it was: the task with its descriptors and ids, its open files, its signal
handlers, its memory, `fs` and the executables, the pages, and every reference to an inode or a buffer. -/
structure Unchanged (s s' : Caller) : Prop where
  current : s'.path.state.current = s.path.state.current
  file : s'.path.state.file = s.path.state.file
  proc : s'.proc = s.proc
  lastTaskUsedMath : s'.lastTaskUsedMath = s.lastTaskUsedMath
  fs : s'.args.fs = s.args.fs
  task : s'.args.mem.task = s.args.mem.task
  pgDir : s'.args.mem.pgDir = s.args.mem.pgDir
  entry : Mm.entry s'.args.mem = Mm.entry s.args.mem
  seen : ∀ p ∈ userPages, Mm.seen s'.args.mem p = Mm.seen s.args.mem p
  memMap : s'.args.mem.memMap = s.args.mem.memMap
  inodes : ∀ i, (s'.path.state.inode i).iCount = (s.path.state.inode i).iCount
  buffers : s'.path.state.bufs = s.path.state.bufs

/-- The references that there are when the call begins. -/
def refsAt (s : Path.State) : Path.Ref → Nat
  | .inode i => (s.inode i).iCount
  | .buffer dev block => s.bufs (dev, block)

theorem callBooks_start (s : Caller) :
    (callBooks (Overheld s.path.log) s.path.state.current s.path.state.file s.proc s.lastTaskUsedMath).inv
      (refsAt s.path.state + 0) s := by
  refine ⟨⟨rfl, rfl, fun _ => rfl, [], 0, (List.append_nil _).symm, rfl, iff_of_true rfl ?_⟩, rfl, rfl⟩
  exact fun _ _ _ _ hmem => absurd hmem List.not_mem_nil

section

variable (fuel : Nat) (buf : Nat → UInt8) (filename : CStr) (argv envp : List CStr) (file : ExeFile) (cur : Nat)
  (current : Mm.Task) (cs : Nat)

/-- Only what comes before the point of no return fails. -/
theorem doExecve_failed {s s' : Caller} {v : Int}
    (h : doExecve fuel buf filename argv envp file cur current cs s = .ok v s') (hv : v < 0) :
    prepare fuel buf filename argv envp s = .ok (.error v) s' := by
  unfold doExecve at h
  split at h
  · cases h
  · obtain ⟨r, s₁, hprepare, hrest⟩ := bind_eq_ok h
    cases r with
    | error retval =>
      cases hrest
      exact hprepare
    | ok r =>
      obtain ⟨_, s₂, -, hret⟩ := bind_eq_ok hrest
      cases hret
      exact absurd hv (by decide)

/-- A call that fails leaves everything as it was, if and only if no block was freed while somebody had its
buffer. -/
theorem execve_failed {hi : Nat} {page : Nat → Nat → UInt8} {files : Nat → Files} {fCount : Nat → UInt16}
    {w : World} (hlo : lowMem ≤ lo) (hhi : hi ≤ lowMem + pagingPages)
    (hreach : World.Reachable file lo hi page files fCount w) {s s' : Caller} (hmem : s.args.mem = w.kernel.mem)
    {v : Int} (hrun : doExecve fuel buf filename argv envp file cur current cs s = .ok v s') (hv : v < 0) :
    ∃ new, s'.path.log = s.path.log ++ new ∧ (Unchanged s s' ↔ FreesUnheld new) := by
  have hslots : Slots lo w :=
    invariant_of_run (fun _ _ hslots hstep => hstep.slots hslots) (boot_slots hlo hhi) hreach
  have hends := (spec_prepare (tally_overheld s.path.log) fuel buf filename argv envp hslots.sys.inv).ends
    (fun _ => Nat.zero_le _) ⟨hmem, rfl⟩ (callBooks_start s)
  unfold Ends at hends
  rw [doExecve_failed fuel buf filename argv envp file cur current cs hrun hv] at hends
  obtain ⟨hfreed, ⟨hcurrent, hfile, hinodes, new, d, hlog, hbufs, hd⟩, hproc, hlast⟩ := hends
  refine ⟨new, hlog, ?_⟩
  rw [← hd]
  have hstart : Path.bufRefs (refsAt s.path.state + okRef readyRef (.error v)) = s.path.state.bufs := rfl
  rw [hstart] at hbufs
  constructor
  · rintro ⟨-, -, -, -, -, -, -, -, -, -, -, hsame⟩
    rw [hsame] at hbufs
    exact left_eq_add.mp hbufs
  · rintro rfl
    refine ⟨hcurrent, hfile, hproc, hlast, hfreed.fs, ?_, ?_, ?_, fun p hp => ?_, ?_, hinodes, hbufs⟩
    all_goals rw [hmem]
    · exact hfreed.frame.same.task
    · exact hfreed.dir
    · exact hfreed.entry
    · exact hfreed.frame.seen p hp not_false
    · exact hfreed.memMap

end

/-! ### A file without links -/

/-- An inode table with inode 2, a file that is not executable and has no links but the block 10, and a directory
with the name `x` for it. -/
def diskByte (b p : Nat) : UInt8 :=
  match b, p with
  | 4, 32 => 0xA4
  | 4, 33 => 0x81
  | 4, 46 => 10
  | 5, 0 => 1
  | 5, 2 => 46
  | 5, 16 => 1
  | 5, 18 => 46
  | 5, 19 => 46
  | 5, 32 => 2
  | 5, 34 => 120
  | _, _ => 0

/-- `users` have the buffer of block 10. -/
def unlinked (users : Nat) : Path.State where
  cache := fun _ =>
    ⟨fun b => if b = 10 then some ⟨fun _ => 0, true, false, users⟩ else none, diskByte, fun _ => true, fun _ _ => 0⟩
  superBlock := fun _ => ⟨⟨64, 100, 1, 1, 5⟩, 0x301, none, fun _ => true, fun _ => true⟩
  inode := fun i =>
    if i = 0 then { Path.MInode.zero with
      iMode := 0x41ED, iNlinks := 2, iCount := 2, iSize := 48, iDev := 0x301, iNum := 1
      iZone := fun k => if k = 0 then 5 else 0 }
    else Path.MInode.zero
  lastInode := 0
  file := fun _ => ⟨0, 0, 0, none, 0⟩
  current := ⟨some 0, some 0, 0, 0, 0, 0, 0, false, -1, 0, fun _ => none, 0⟩
  ttyPgrp := fun _ => 0
  rootDev := 0x301
  now := 0
  floppyChange := fun _ => false

def unlinkedCaller (users : Nat) : Caller :=
  ⟨⟨unlinked users, []⟩, Args.start (World.boot 1024 4096 (fun _ _ => 0) noFiles fun _ => 0).kernel.mem .user,
    ⟨fun _ => 0, 0, 0, 0, false, 0, 0⟩, none⟩

def xName : CStr := ⟨[120], by simp⟩

/-- `execve("x", …)` -/
def execX (users : Nat) : EStateM.Result Halt Caller Int :=
  doExecve 1 (fun _ => 0) xName [] [] noFile 0 initTask 0x0f (unlinkedCaller users)

/-- Somebody has the buffer of block 10 once, and there are two references to it when the call has failed. -/
theorem execve_keeps_buffer : ∃ (w : World) (s s' : Caller) (v : Int),
    World.Reachable noFile 1024 4096 (fun _ _ => 0) noFiles (fun _ => 0) w ∧ s.args.mem = w.kernel.mem ∧
    doExecve 1 (fun _ => 0) xName [] [] noFile 0 initTask 0x0f s = .ok v s' ∧ v < 0 ∧ ¬ Unchanged s s' := by
  have hrun : (match execX 1 with
      | .ok v s' => decide (v < 0 ∧ s'.path.state.bufs (0x301, 10) = 2)
      | .error _ _ => false) = true := by decide +kernel
  cases hx : execX 1 with
  | error e s' =>
    rw [hx] at hrun
    cases hrun
  | ok v s' =>
    rw [hx] at hrun
    obtain ⟨hv, htwo⟩ := of_decide_eq_true hrun
    refine ⟨_, unlinkedCaller 1, s', v, .refl, rfl, hx, hv, fun h => ?_⟩
    have hone : s'.path.state.bufs (0x301, 10) = 1 := congrFun h.buffers (0x301, 10)
    rw [htwo] at hone
    cases hone

/-- Nobody has the buffer. -/
theorem execve_failed_x : ∃ (s' : Caller) (v : Int),
    doExecve 1 (fun _ => 0) xName [] [] noFile 0 initTask 0x0f (unlinkedCaller 0) = .ok v s' ∧ v < 0 ∧
    ∃ new, s'.path.log = new ∧ (Unchanged (unlinkedCaller 0) s' ↔ FreesUnheld new) := by
  have hrun : (match execX 0 with
      | .ok v _ => decide (v < 0)
      | .error _ _ => false) = true := by decide +kernel
  cases hx : execX 0 with
  | error e s' =>
    rw [hx] at hrun
    cases hrun
  | ok v s' =>
    rw [hx] at hrun
    have hv := of_decide_eq_true hrun
    have hboot : World.Reachable noFile 1024 4096 (fun _ _ => 0) noFiles (fun _ => 0)
      (World.boot 1024 4096 (fun _ _ => 0) noFiles fun _ => 0) := .refl
    exact ⟨s', v, hx, hv, execve_failed 1 (fun _ => 0) xName [] [] noFile 0 initTask 0x0f (by decide) (by decide)
      hboot rfl hx hv⟩

end Linux011.Exec
