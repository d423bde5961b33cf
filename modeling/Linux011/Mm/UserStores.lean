import Linux011.Mm.UserAccess

/-!
# Stores by the kernel into user memory

`sys_read` verifies its buffer first; `sys_pipe` and `sys_whoami` do not; and a page that is absent is brought in by the
store itself, perhaps shared. Between `verify_area` and a store the call sleeps, in `bmap` and in `bread`, and so does
`do_no_page`, in `bread_page`. `UserCall.Step` lets the other tasks run wherever the call sleeps; `Event.Alone` says what
they must not do, and the call itself must not come upon, for every store to go to a page of the calling task alone.
-/

namespace Linux011.Mm

open Linux011.Lib

/-! ## `do_no_page` in two parts -/

/-- `do_no_page(address)` up to `bread_page`: the page is there, or one has been taken for it. -/
def startNoPage (address cur : Nat) (current : Task) (s : Mem) : Except Stop (Option Nat × Mem) :=
  let address := address / 4096 * 4096
  let tmp := address - current.startCode
  match current.executable with
  | none => do
    let s ← getEmptyPage address s
    return (none, s)
  | some _ =>
    if tmp ≥ current.endData then do
      let s ← getEmptyPage address s
      return (none, s)
    else do
      let (shared, s) ← sharePage tmp cur current s
      if shared then .ok (none, s)
      else
        match getFreePage s with
        | (none, s) => .error (.oom s)
        | (some page, s) => .ok (some page, s)

/-- `do_no_page(address)` from `bread_page` on, for the page that has been taken and the bytes read. -/
def finishNoPage (bytes : Nat → UInt8) (page address : Nat) (s : Mem) : Except Stop Mem :=
  match putPage page (address / 4096 * 4096) (s.setPage page bytes) with
  | (some _, s) => .ok s
  | (none, s) => do
    let s ← freePage page s
    .error (.oom s)

/-- What `bread_page` and the loop behind it put into the page for an address. -/
def pageRead (file : ExeFile) (address : Nat) (current : Task) : Nat → UInt8 :=
  match current.executable with
  | none => fun _ => 0
  | some x => filePage file x current.endData (address / 4096 * 4096 - current.startCode)

/-- With nobody in between, the two parts are `do_no_page`. -/
theorem doNoPage_eq (file : ExeFile) (address cur : Nat) (current : Task) (s : Mem) :
    doNoPage file address cur current s = startNoPage address cur current s >>= fun r =>
      match r.1 with
      | none => .ok r.2
      | some page => finishNoPage (pageRead file address current) page address r.2 := by
  have hempty : ∀ a, getEmptyPage a s =
      ((getEmptyPage a s >>= fun s => return (none, s)) >>= fun r : Option Nat × Mem =>
        match r.1 with
        | none => .ok r.2
        | some page => finishNoPage (pageRead file address current) page address r.2) := by
    intro a
    cases getEmptyPage a s <;> rfl
  unfold doNoPage startNoPage
  cases hexe : current.executable with
  | none => exact hempty _
  | some x =>
    dsimp only
    split
    · exact hempty _
    · cases hshare : sharePage (address / 4096 * 4096 - current.startCode) cur current s with
      | error e => rfl
      | ok r =>
        obtain ⟨shared, s₁⟩ := r
        cases shared with
        | true => rfl
        | false =>
          dsimp only [bind, Except.bind]
          rw [if_neg Bool.false_ne_true]
          rcases getFreePage s₁ with ⟨_ | page, s₂⟩
          · rfl
          · dsimp only
            unfold pageRead
            rw [hexe]
            rfl

/-! ## The calls -/

/-- What a system call does to memory, in order. -/
inductive Access where
  | sleep                                  -- other tasks run until the call is woken
  | take                                   -- `get_free_page`
  | put (o : Nat) (bytes : List UInt8)     -- the store of `put_fs_byte` or `put_fs_long`

/-- The store goes to this offset of the data segment as well. -/
def Access.Covers (o : Nat) : Access → Prop
  | put o' bytes => o' ≤ o ∧ o < o' + bytes.length
  | _ => False

def putEach : Nat → List UInt8 → List Access
  | _, [] => []
  | o, b :: bytes => .put o [b] :: putEach (o + 1) bytes

/-- `file_read`, where `verify_area` is done: for each block `bmap` and `bread`, and then its bytes, those of a hole
included. -/
def fileRead : Nat → List (List UInt8) → List Access
  | _, [] => []
  | buf, block :: blocks => .sleep :: (putEach buf block ++ fileRead (buf + block.length) blocks)

/-- `sys_pipe`, where the descriptors are there: `get_pipe_inode` may sleep in `get_empty_inode` and takes a page. -/
def sysPipe (fd0 fd1 fildes : Nat) : List Access :=
  [.sleep, .take, .put fildes (longBytes fd0), .put (fildes + 4) (longBytes fd1)]

/-- `sys_whoami`, which stores the bytes that it finds in `msg`. -/
def sysWhoami (name : Nat) (msg : List UInt8) : List Access := putEach name msg

/-- A call on its way. -/
structure UserCall where
  sys : Sys
  todo : List Access
  reading : Option (Nat × Nat)   -- the page that `do_no_page` has taken, and the offset that it is for

namespace UserCall

def Pending (c : UserCall) (o : Nat) : Prop := ∃ a ∈ c.todo, a.Covers o

def Asleep (c : UserCall) : Prop := c.reading ≠ none ∨ ∃ rest, c.todo = .sleep :: rest

end UserCall

/-- An operation of another task than `n`. A fault of another task may sleep as well, and comes as `try_to_share`,
`get_empty_page`, or `get_free_page`, the reading and `put_page`. -/
def Op.Other (σ : Sys) (n : Nat) (reading : Option (Nat × Nat)) : Op → Prop
  | copyPageTables m k _ => m ≠ n ∧ k ≠ n
  | copyKernel k _ | freePageTables k _ => k ≠ n
  | doNoPage _ _ => False
  | doWpPage address | writeVerify address | getEmptyPage address | store address _ => address / 0x4000000 ≠ n
  | tryToShare _ m k => k ≠ n ∧ (σ.mem.task m).isSome ∧ (σ.mem.task k).isSome
  | putPage page address => address / 0x4000000 ≠ n ∧ ∀ o, reading ≠ some (page, o)
  | getFreePage => True
  | freePage page => ∀ o, reading ≠ some (page, o)
  | tasks task _ => task n = σ.mem.task n

namespace UserCall

inductive Event where
  | fault (o : Nat)                          -- the page of this offset is absent
  | read                                     -- it has been read, and is put there
  | store (o : Nat) (bytes : List UInt8)
  | take
  | wake
  | other (op : Op)
  | killed (op : Op)                         -- another task is killed for want of memory
  | fill (page : Nat) (bytes : Nat → UInt8)  -- another task writes a page of the kernel's

/-- Writing a row of bytes through entries that are present. -/
def storeBytes (address : Nat) : List UInt8 → Mem → Mem
  | [], s => s
  | b :: bytes, s => storeBytes (address + 1) bytes (s.store address b)

/-- One step of a call by the task in slot `n`, or of another task while the call sleeps. A store faults until the
pages of all its bytes are present. Where it is killed, beyond the limit or for want of memory, it makes no step. -/
inductive Step (file : ExeFile) (n : Nat) (current : Task) (c : UserCall) : Event → UserCall → Prop
  | fault {o k : Nat} {bytes : List UInt8} {rest : List Access} {r : Option Nat} {s : Mem}
      (htodo : c.todo = .put o bytes :: rest) (hlimit : o + bytes.length ≤ current.dataLimit)
      (hreading : c.reading = none) (hk : k < bytes.length)
      (habs : (walk c.sys.mem (current.startCode + (o + k))).present = false)
      (hexec : startNoPage (current.startCode + (o + k)) n current c.sys.mem = .ok (r, s)) :
      Step file n current c (.fault (o + k))
        ⟨⟨s, match r with | some page => Function.update c.sys.own page 1 | none => c.sys.own⟩, c.todo,
          r.map fun page => (page, o + k)⟩
  | read {page o : Nat} {s : Mem} (hreading : c.reading = some (page, o))
      (hexec : finishNoPage (pageRead file (current.startCode + o) current) page (current.startCode + o)
        c.sys.mem = .ok s) :
      Step file n current c .read ⟨⟨s, Function.update c.sys.own page 0⟩, c.todo, none⟩
  | store {o : Nat} {bytes : List UInt8} {rest : List Access} (htodo : c.todo = .put o bytes :: rest)
      (hlimit : o + bytes.length ≤ current.dataLimit) (hreading : c.reading = none)
      (hpres : ∀ k < bytes.length, (walk c.sys.mem (current.startCode + (o + k))).present = true) :
      Step file n current c (.store o bytes)
        ⟨⟨storeBytes (current.startCode + o) bytes c.sys.mem, c.sys.own⟩, rest, none⟩
  | take {page : Nat} {s : Mem} {rest : List Access} (htodo : c.todo = .take :: rest) (hreading : c.reading = none)
      (hexec : getFreePage c.sys.mem = (some page, s)) :
      Step file n current c .take ⟨⟨s, Function.update c.sys.own page 1⟩, rest, none⟩
  | wake {rest : List Access} (htodo : c.todo = .sleep :: rest) (hreading : c.reading = none) :
      Step file n current c .wake ⟨c.sys, rest, none⟩
  | other {op : Op} {σ : Sys} (hasleep : c.Asleep) (hother : op.Other c.sys n c.reading)
      (hallowed : op.Allowed c.sys) (hexec : op.exec file c.sys = .ok σ) :
      Step file n current c (.other op) { c with sys := σ }
  | killed {op : Op} {s : Mem} (hasleep : c.Asleep) (hother : op.Other c.sys n c.reading)
      (hallowed : op.Allowed c.sys) (hexec : op.exec file c.sys = .error (.oom s)) :
      Step file n current c (.killed op) { c with sys := ⟨s, c.sys.own⟩ }
  | fill {page : Nat} {bytes : Nat → UInt8} (hasleep : c.Asleep) (howner : c.sys.own page = 1)
      (hpage : ∀ o, c.reading ≠ some (page, o)) :
      Step file n current c (.fill page bytes) { c with sys := ⟨c.sys.mem.setPage page bytes, c.sys.own⟩ }

end UserCall

/-- `share_page` would find a page for offset `o`. -/
def SharesAt (s : Mem) (cur : Nat) (current : Task) (o : Nat) : Prop :=
  o / 4096 * 4096 < current.endData ∧ Shares s (o / 4096 * 4096) cur current

/-- `try_to_share` shares the page `p` of task `n`. -/
def Op.Takes (s : Mem) (n p : Nat) : Op → Prop
  | tryToShare address m _ => m = n ∧ taskPage n address = p ∧ Shareable s p
  | _ => False

namespace UserCall

/-- A fault of the call finds no page to share, and no other task shares a page that the call still has to store
into. -/
def Event.Alone (n : Nat) (current : Task) (c : UserCall) : Event → Prop
  | fault o => ¬ SharesAt c.sys.mem n current o
  | other op => ∀ o, c.Pending o → ¬ op.Takes c.sys.mem n (taskPage n o)
  | _ => True

/-- The pages that the call still has to store into are mapped by no other task, as far as they are there. -/
def Unshared (n : Nat) (current : Task) (c : UserCall) : Prop :=
  ∀ o, c.Pending o → o < current.dataLimit → (entry c.sys.mem (taskPage n o)).present = true →
    Private c.sys.mem (taskPage n o)

end UserCall

/-! ## What the other tasks do -/

variable {file : ExeFile} {lo : Nat} {own : Nat → Nat} {s s' : Mem} {n o p : Nat} {current : Task} {σ σ' : Sys}

theorem Spares.of_refs {T : Nat → Prop}
    (hrefs : ∀ q, (entry s' q).target = (entry s q).target ∧ (entry s' q).frame = (entry s q).frame) :
    Spares n T s s' := by
  refine ⟨fun p _ _ => (hrefs p).1, fun p _ _ _ _ hprivate => ?_⟩
  refine ⟨by rw [(hrefs p).2]; exact hprivate.1, fun q hq hqp => ?_⟩
  rw [(hrefs p).2, (hrefs q).1]
  exact hprivate.2 q hq hqp

theorem Spares.of_none {T : Nat → Prop} (hframe : Frame (fun _ => False) s s') : Spares n T s s' :=
  .of_frame hframe (fun _ => False.elim) fun _ _ h => h.elim

theorem Spares.of_fresh {T : Nat → Prop} {bytes : Nat → UInt8} (hframe : Frame (· = p) s s') (hp : p / 16384 ≠ n)
    (hfresh : Fresh s s' p bytes) : Spares n T s s' := by
  refine .of_frame hframe (fun q hq => hq ▸ hp) ?_
  rintro q - rfl f hf
  obtain ⟨g, -, hun, he, -⟩ := hfresh
  rw [he] at hf
  cases hf
  exact .inr (.inl hun)

theorem Spares.of_unshared {T : Nat → Prop} (hframe : Frame (· = p) s s') (hp : p / 16384 ≠ n)
    (hun : Unshared s s' p) : Spares n T s s' := by
  refine .of_frame hframe (fun q hq => hq ▸ hp) ?_
  rintro q - rfl f hf
  rcases hun.ent with ⟨-, he⟩ | ⟨-, g, -, hfresh, he⟩
  · rw [he] at hf
    exact .inl hf
  · rw [he] at hf
    cases hf
    exact .inr (.inl hfresh)

/-- The tables of another task do not map a page of task `n` alone. -/
theorem Private.avoids {d m : Nat} (hprivate : Private s p) (hslot : p / 16384 = n) (hm : m ≠ n) (hd : d / 16 = m)
    (hdir : d ∈ userDirs) (hpres : (s.pgDir d).present = true) : Avoids 1024 (entry s p).frame s (s.pgDir d).frame := by
  intro i hi he heq
  have hent : entry s (d * 1024 + i) = s.pageTable (s.pgDir d).frame i :=
    entry_page (tableOf_eq_some.mpr ⟨hdir, hpres, rfl⟩) hi
  refine hprivate.2 (d * 1024 + i) (page_mem hdir hi) (by omega) ?_
  rw [hent, Pte.target_of_present he, heq]

/-- What an operation of another task leaves of task `n`. -/
theorem Op.Other.spares {reading : Option (Nat × Nat)} {op : Op} (h : SysInv lo σ) (hother : op.Other σ n reading)
    (hallowed : op.Allowed σ) :
    Post (op.exec file σ)
      (fun σ' => Spares n (op.Takes σ.mem n) σ.mem σ'.mem ∧ σ'.mem.task n = σ.mem.task n ∧
        ∀ f o, reading = some (f, o) → σ.own f = 1 → σ'.own f = 1)
      (fun e => ∀ s', e = .oom s' → Spares n (fun _ => False) σ.mem s' ∧ s'.task n = σ.mem.task n) := by
  have killed : ∀ e, e = Stop.oom σ.mem →
      ∀ s', e = .oom s' → Spares n (fun _ => False) σ.mem s' ∧ s'.task n = σ.mem.task n := by
    rintro _ rfl s' heq
    cases heq
    exact ⟨.of_entry rfl, rfl⟩
  have stays : ∀ {T : Nat → Prop} {S : Nat → Prop} {s' : Mem}, Spares n T σ.mem s' → Frame S σ.mem s' →
      Spares n T σ.mem s' ∧ s'.task n = σ.mem.task n ∧
        ∀ f o, reading = some (f, o) → σ.own f = 1 → σ.own f = 1 :=
    fun hspares hframe => ⟨hspares, by rw [hframe.same.task], fun _ _ _ ho => ho⟩
  cases op with
  | copyPageTables m k size =>
    obtain ⟨hm, hk, hmk, hsize⟩ := hallowed
    obtain ⟨hmn, hkn⟩ := hother
    cases hcopy : Mm.copyPageTables (m * 0x4000000) (k * 0x4000000) size σ.mem with
    | error e =>
      simp only [Op.exec, hcopy]
      refine Post.stop fun s' heq => ?_
      obtain ⟨rfl, -⟩ := (copyPageTables_spec h.inv hm hk hmk hsize).of_error _ hcopy
      cases heq
    | ok r =>
      simp only [Op.exec, hcopy]
      obtain ⟨h', hframe, -⟩ := (copyPageTables_spec h.inv hm hk hmk hsize).of_ok _ hcopy
      rw [Mm.copyPageTables, if_neg (by omega), if_neg (by omega)] at hcopy
      refine Post.ret (stays (.of_copy h.inv h' hframe hkn hcopy fun d h1 h2 hd p _ hslot _ hprivate => ?_) hframe)
      have hdm : dirIndex (m * 0x4000000) = 16 * m := by
        unfold dirIndex
        omega
      rw [hdm] at h1 h2
      exact hprivate.avoids hslot hmn (by omega) (mem_userDirs.mpr (by omega)) hd
  | copyKernel k size =>
    obtain ⟨hk, hsize⟩ := hallowed
    cases hcopy : Mm.copyPageTables 0 (k * 0x4000000) size σ.mem with
    | error e =>
      simp only [Op.exec, hcopy]
      refine Post.stop fun s' heq => ?_
      obtain rfl := (copyPageTables_kernel h.inv hk hsize).of_error _ hcopy
      cases heq
    | ok r =>
      simp only [Op.exec, hcopy]
      obtain ⟨h', hframe⟩ := (copyPageTables_kernel h.inv hk hsize).of_ok _ hcopy
      rw [Mm.copyPageTables, if_neg (by omega), if_pos rfl] at hcopy
      refine Post.ret (stays (.of_copy h.inv h' hframe hother hcopy fun d h1 h2 hd p _ _ _ hprivate => ?_) hframe)
      -- the pages that the first fork copies are not counted
      intro i hi _ heq
      obtain rfl : d = 0 := by
        unfold dirIndex at h1 h2
        omega
      have hlow := h.inv.fixed.kernel_low i hi
      have hmain := hprivate.1
      omega
  | freePageTables k size =>
    obtain ⟨hk, hsize⟩ := hallowed
    refine Post.bind ((freePageTables_spec h.inv hk hsize).mono (fun _ hr => hr) (fun _ hf => hf.elim)) ?_
    rintro s' ⟨-, hframe, hnone⟩
    refine Post.ret (stays (.of_frame hframe (fun p hp => ?_) fun q _ hq f hf => ?_) hframe)
    · have hkn : k ≠ n := hother
      omega
    · rw [entry_of_none (hnone _ hq.1 hq.2)] at hf
      cases hf
  | doNoPage _ _ => exact hother.elim
  | doWpPage address =>
    obtain ⟨hp, hpres⟩ := hallowed
    refine Post.bind ((doWpPage_spec h.inv hp hpres).mono (fun _ hr => hr) killed) ?_
    rintro s' ⟨-, hframe, hun⟩
    exact Post.ret (stays (.of_unshared hframe (by rwa [Nat.div_div_eq_div_mul]) hun) hframe)
  | writeVerify address =>
    rcases hallowed with hp | hd
    · refine Post.bind ((writeVerify_spec h.inv hp).mono (fun _ hr => hr) killed) ?_
      rintro s' ⟨-, hframe, ⟨rfl, -⟩ | ⟨-, -, hun⟩⟩
      · exact Post.ret (stays (.of_entry rfl) hframe)
      · exact Post.ret (stays (.of_unshared hframe (by rwa [Nat.div_div_eq_div_mul]) hun) hframe)
    · simp only [Op.exec, writeVerify_kernel h.inv hd]
      exact Post.ret (stays (.of_entry rfl) (Frame.refl (fun _ => False) _))
  | tryToShare address m k =>
    obtain ⟨hm, hk, hmk, ha, habs⟩ := hallowed
    obtain ⟨hkn, hmsome, hksome⟩ := hother
    obtain ⟨t, ht⟩ := Option.isSome_iff_exists.mp hmsome
    obtain ⟨t', ht'⟩ := Option.isSome_iff_exists.mp hksome
    simp only [Op.exec, ht, ht']
    refine Post.bind ((tryToShare_spec h.inv hm hk hmk (h.layout _ _ ht) (h.layout _ _ ht') ha
      habs).mono (fun _ hr => hr) killed) ?_
    rintro r (⟨rfl, -⟩ | ⟨-, hshare, -, hframe, hcopied⟩)
    · exact Post.ret (stays (.of_entry rfl) (Frame.refl (fun _ => False) _))
    · refine Post.ret (stays (.of_frame hframe (fun p hp => ?_) ?_) hframe)
      · rw [hp, taskPage_slot ha]
        exact hkn
      · rintro q - rfl f hf
        refine .inr (.inr ⟨taskPage m address, taskPage_mem hm ha, hcopied.target ▸ hf, fun hslot => ?_⟩)
        rw [taskPage_slot ha] at hslot
        subst hslot
        exact ⟨rfl, rfl, hshare⟩
  | putPage page address =>
    obtain ⟨ho, hp, habs⟩ := hallowed
    have hmain := h.own_main _ ho
    rcases putPage_spec h.inv hmain ho hp habs with hput | ⟨s', hput, -, hframe, hent, -⟩
    · simp only [Op.exec, hput]
      exact Post.ret (stays (.of_entry rfl) (Frame.refl (fun _ => False) _))
    · simp only [Op.exec, hput]
      refine Post.ret ⟨.of_frame hframe (fun q hq => ?_) ?_, by rw [hframe.same.task], fun f o hf hown => ?_⟩
      · rw [hq, Nat.div_div_eq_div_mul]
        exact hother.1
      · rintro q - rfl f hf
        rw [hent] at hf
        cases hf
        exact .inr (.inl fun r hr => h.inv.good.unmapped_of_own hmain.1 hmain.2 ho hr)
      · have hne : f ≠ page := fun heq => hother.2 o (heq ▸ hf)
        show Function.update σ.own page 0 f = 1
        rw [Function.update_of_ne hne, hown]
  | getEmptyPage address =>
    obtain ⟨hp, habs⟩ := hallowed
    refine Post.bind ((getEmptyPage_spec h.inv hp habs).mono (fun _ hr => hr) ?_) ?_
    · rintro e ⟨s', rfl, -, hframe⟩ s'' heq
      cases heq
      exact ⟨.of_none hframe, by rw [hframe.same.task]⟩
    · rintro s' ⟨-, hframe, hfresh⟩
      exact Post.ret (stays (.of_fresh hframe (by rwa [Nat.div_div_eq_div_mul]) hfresh) hframe)
  | getFreePage =>
    rcases getFreePage_spec h.inv with hget | ⟨f, s', hget, g⟩
    · simp only [Op.exec, hget]
      exact Post.ret (stays (.of_entry rfl) (Frame.refl (fun _ => False) _))
    · simp only [Op.exec, hget]
      refine Post.ret ⟨.of_entry g.ent, by rw [g.same.task], fun f' o _ hown => ?_⟩
      show Function.update σ.own f 1 f' = 1
      rw [Function.update_apply]
      split
      · rfl
      · exact hown
  | freePage page =>
    rcases hallowed with ho | hlow
    · have hmain := h.own_main _ ho
      have hnot : ¬ page < lowMem := Nat.not_lt.mpr (Nat.le_trans h.inv.fixed.lo_le hmain.1)
      refine Post.bind ((freePage_owned h.inv hmain ho).mono (fun _ hr => hr) (fun _ hf => hf.elim)) ?_
      rintro s' ⟨-, hframe, -, hent, -⟩
      rw [if_neg hnot]
      refine Post.ret ⟨.of_entry hent, by rw [hframe.same.task], fun f o hf hown => ?_⟩
      have hne : f ≠ page := fun heq => hother o (heq ▸ hf)
      show Function.update σ.own page 0 f = 1
      rw [Function.update_of_ne hne, hown]
    · simp only [Op.exec, freePage_low hlow, if_pos hlow]
      exact Post.ret (stays (.of_entry rfl) (Frame.refl (fun _ => False) _))
  | store address v =>
    obtain ⟨hp, hpres⟩ := hallowed
    refine Post.ret ⟨.of_refs fun q => ?_, rfl, fun _ _ _ ho => ho⟩
    show (entry (σ.mem.store address v) q).target = _ ∧ (entry (σ.mem.store address v) q).frame = _
    rw [entry_store h.inv hp hpres, Function.update_apply]
    split
    · next hq =>
      rw [hq]
      exact ⟨rfl, rfl⟩
    · exact ⟨rfl, rfl⟩
  | tasks task iCount => exact Post.ret ⟨.of_entry rfl, hother, fun _ _ _ ho => ho⟩

/-! ## What the call does -/

/-- A fault of the call: the page is new, or is shared, or has still to be read. -/
theorem startNoPage_spec (h : Inv lo own s) (hlay : Layout s) (hn : 1 ≤ n ∧ n < 64) (ht : s.task n = some current)
    (ho : o < 0x4000000) (habs : (entry s (taskPage n o)).target = none) :
    Post (startNoPage (n * 0x4000000 + o) n current s)
      (fun r => (r.1 = none ∧ Inv lo own r.2 ∧ Frame (· = taskPage n o) s r.2 ∧
          ((¬ SharesAt s n current o ∧ ∃ bytes, Fresh s r.2 (taskPage n o) bytes) ∨
            (SharesAt s n current o ∧ ∃ q ∈ userPages, q ≠ taskPage n o ∧
              (entry s q).present = true ∧ (entry r.2 (taskPage n o)).target = (entry s q).target))) ∨
        ∃ page, r.1 = some page ∧ ¬ SharesAt s n current o ∧ Got lo own s page r.2)
      (fun _ => True) := by
  have hround : (n * 0x4000000 + o) / 4096 * 4096 / 4096 = taskPage n o := by
    unfold taskPage
    omega
  have htmp : (n * 0x4000000 + o) / 4096 * 4096 - n * 0x4000000 = o / 4096 * 4096 := by omega
  have hpage : taskPage n (o / 4096 * 4096) = taskPage n o := by
    unfold taskPage
    omega
  have hempty : ¬ SharesAt s n current o →
      Post (getEmptyPage ((n * 0x4000000 + o) / 4096 * 4096) s >>= fun s => return (none, s))
        (fun r : Option Nat × Mem => (r.1 = none ∧ Inv lo own r.2 ∧ Frame (· = taskPage n o) s r.2 ∧
          ((¬ SharesAt s n current o ∧ ∃ bytes, Fresh s r.2 (taskPage n o) bytes) ∨
            (SharesAt s n current o ∧ ∃ q ∈ userPages, q ≠ taskPage n o ∧
              (entry s q).present = true ∧ (entry r.2 (taskPage n o)).target = (entry s q).target))) ∨
        ∃ page, r.1 = some page ∧ ¬ SharesAt s n current o ∧ Got lo own s page r.2) (fun _ => True) := by
    intro halone
    have hget := getEmptyPage_spec h (a := (n * 0x4000000 + o) / 4096 * 4096)
      (by rw [hround]; exact taskPage_mem hn ho) (by rwa [hround])
    rw [hround] at hget
    refine Post.bind (hget.mono (fun _ hs => hs) fun _ _ => trivial) ?_
    rintro s' ⟨h', hframe, hfresh⟩
    exact Post.ret (.inl ⟨rfl, h', hframe, .inl ⟨halone, _, hfresh⟩⟩)
  unfold startNoPage
  rw [hlay n current ht]
  dsimp only
  rw [htmp]
  cases hexe : current.executable with
  | none =>
    refine hempty fun hshares => ?_
    obtain ⟨-, ⟨x, hx, -⟩, -⟩ := hshares
    rw [hexe] at hx
    cases hx
  | some x =>
    dsimp only
    split
    · next hbeyond =>
      exact hempty fun hshares => absurd hshares.1 (Nat.not_lt.mpr hbeyond)
    · next hinside =>
      have hshare := sharePage_spec h hlay hn (hlay n current ht) (a := o / 4096 * 4096) (by omega)
        (by rw [hpage, habs])
      refine Post.bind (hshare.mono (fun _ hr => hr) fun _ _ => trivial) ?_
      rintro ⟨shared, s₁⟩ (⟨heq, halone⟩ | ⟨hshared, hshares, h₁, hframe, m, h1, h2, hdonor, hcopied⟩)
      · cases heq
        rw [if_neg Bool.false_ne_true]
        rcases getFreePage_spec h with hget | ⟨f, s₁, hget, g⟩
        · rw [hget]
          exact Post.stop trivial
        · rw [hget]
          exact Post.ret (.inr ⟨f, rfl, fun hat => halone hat.2, g⟩)
      · cases hshared
        rw [if_pos rfl]
        rw [hpage] at hframe hcopied
        have hne : taskPage m (o / 4096 * 4096) ≠ taskPage n o := by
          have hmn := hdonor.1
          unfold taskPage
          omega
        exact Post.ret (.inl ⟨rfl, h₁, hframe, .inr ⟨⟨Nat.not_le.mp hinside, hshares⟩, _,
          taskPage_mem ⟨h1, h2⟩ (by omega), hne, hdonor.2.2.1, hcopied.target⟩⟩)

theorem finishNoPage_spec {page : Nat} {bytes : Nat → UInt8} (h : SysInv lo σ) (hn : 1 ≤ n ∧ n < 64)
    (ho : o < 0x4000000) (hown : σ.own page = 1) (habs : (entry σ.mem (taskPage n o)).target = none) :
    Post (finishNoPage bytes page (n * 0x4000000 + o) σ.mem)
      (fun s' => Inv lo (Function.update σ.own page 0) s' ∧ Frame (· = taskPage n o) σ.mem s' ∧
        Fresh σ.mem s' (taskPage n o) bytes)
      (fun _ => True) := by
  have hround : (n * 0x4000000 + o) / 4096 * 4096 / 4096 = taskPage n o := by
    unfold taskPage
    omega
  have hmain := h.own_main page hown
  have hset : Frame (fun q => q = taskPage n o) σ.mem (σ.mem.setPage page bytes) := by
    refine Frame.of_entry ⟨rfl, rfl, rfl⟩ (fun _ _ _ => rfl) fun q hq _ f hf => ?_
    have hne : f ≠ page := by
      rintro rfl
      exact h.inv.good.unmapped_of_own hmain.1 hmain.2 hown hq hf
    exact Function.update_of_ne hne bytes σ.mem.page
  have h₁ : Inv lo σ.own (σ.mem.setPage page bytes) := ⟨h.inv.good, h.inv.fixed.setPage _⟩
  have hput := putPage_spec h₁ (a := (n * 0x4000000 + o) / 4096 * 4096) hmain hown
    (by rw [hround]; exact taskPage_mem hn ho) (by rwa [hround])
  rw [hround] at hput
  unfold finishNoPage
  rcases hput with hput | ⟨s', hput, h', hframe, hent, hpage⟩
  · rw [hput]
    dsimp only
    cases freePage page (σ.mem.setPage page bytes) with
    | error e => exact Post.stop trivial
    | ok s' => exact Post.stop trivial
  · rw [hput]
    refine Post.ret ⟨h', hset.trans hframe, page, Nat.le_trans h.inv.fixed.lo_le hmain.1, fun q hq => ?_, hent, ?_⟩
    · exact h.inv.good.unmapped_of_own hmain.1 hmain.2 hown hq
    · rw [hpage]
      exact Function.update_self ..

/-- A store changes no entry but for the dirty bit. -/
theorem storeBytes_spec (hn : 1 ≤ n ∧ n < 64) (bytes : List UInt8) : ∀ (a o : Nat) (s : Mem), a / 4096 = taskPage n o →
    a % 4096 = o % 4096 → Inv lo own s →
    (∀ k < bytes.length, o + k < 0x4000000 ∧ (entry s (taskPage n (o + k))).present = true) →
    Inv lo own (UserCall.storeBytes a bytes s) ∧ Same s (UserCall.storeBytes a bytes s) ∧
      ∀ q, (entry (UserCall.storeBytes a bytes s) q).target = (entry s q).target ∧
        (entry (UserCall.storeBytes a bytes s) q).frame = (entry s q).frame := by
  induction bytes with
  | nil => exact fun _ _ s _ _ h _ => ⟨h, Same.refl s, fun _ => ⟨rfl, rfl⟩⟩
  | cons b bytes ih =>
    intro a o s hpage hoff h hpres
    obtain ⟨ho, hfirst⟩ := hpres 0 (Nat.succ_pos _)
    rw [Nat.add_zero] at ho hfirst
    have hp : a / 4096 ∈ userPages := by
      rw [hpage]
      exact taskPage_mem hn ho
    rw [← hpage] at hfirst
    obtain ⟨h₁, hsame₁, -⟩ := store_spec (v := b) h hp hfirst
    have hrefs : ∀ q, (entry (s.store a b) q).target = (entry s q).target ∧
        (entry (s.store a b) q).frame = (entry s q).frame := by
      intro q
      rw [entry_store h hp hfirst, Function.update_apply]
      split
      · next hq =>
        rw [hq]
        exact ⟨rfl, rfl⟩
      · exact ⟨rfl, rfl⟩
    have hnext : (a + 1) / 4096 = taskPage n (o + 1) ∧ (a + 1) % 4096 = (o + 1) % 4096 := by
      unfold taskPage at hpage ⊢
      omega
    obtain ⟨h₂, hsame₂, hrefs₂⟩ := ih (a + 1) (o + 1) (s.store a b) hnext.1 hnext.2 h₁ fun k hk => by
      obtain ⟨hk', hpk⟩ := hpres (k + 1) (Nat.succ_lt_succ hk)
      rw [show o + 1 + k = o + (k + 1) by omega]
      exact ⟨hk', (Pte.target_eq_some.mp ((hrefs _).1.trans (Pte.target_of_present hpk))).1⟩
    rw [UserCall.storeBytes]
    exact ⟨h₂, hsame₁.trans hsame₂, fun q => ⟨(hrefs₂ q).1.trans (hrefs q).1, (hrefs₂ q).2.trans (hrefs q).2⟩⟩

/-! ## One step -/

namespace UserCall

/-- What every step keeps. -/
structure Sound (lo n : Nat) (current : Task) (c : UserCall) : Prop where
  sys : SysInv lo c.sys
  task : c.sys.mem.task n = some current
  reading : ∀ page o, c.reading = some (page, o) →
    c.sys.own page = 1 ∧ o < 0x4000000 ∧ (entry c.sys.mem (taskPage n o)).target = none

variable {c c' : UserCall} {ev : Event}

theorem Sound.start (h : Sound lo n current c) : current.startCode = n * 0x4000000 := h.sys.layout n current h.task

theorem Sound.walk (h : Sound lo n current c) (hn : 1 ≤ n ∧ n < 64) (ho : o < 0x4000000) :
    Mm.walk c.sys.mem (current.startCode + o) = entry c.sys.mem (taskPage n o) := by
  rw [h.start, walk_eq (by rw [address_page]; exact taskPage_mem hn ho), address_page]

/-- The pages that other tasks leave alone stay unshared. -/
theorem Unshared.kept {T : Nat → Prop} {todo : List Access} {reading : Option (Nat × Nat)} (hn : 1 ≤ n ∧ n < 64)
    (hlim : current.dataLimit ≤ 0x4000000) (hun : c.Unshared n current) (hspares : Spares n T c.sys.mem σ'.mem)
    (hT : ∀ o, c.Pending o → ¬ T (taskPage n o)) (htodo : ∀ a ∈ todo, a ∈ c.todo) :
    Unshared n current ⟨σ', todo, reading⟩ := by
  rintro o ⟨a, ha, hcovers⟩ ho hpres
  have hpending : c.Pending o := ⟨a, htodo a ha, hcovers⟩
  have hlt : o < 0x4000000 := Nat.lt_of_lt_of_le ho hlim
  have hp := taskPage_mem hn hlt
  have hbefore : (entry c.sys.mem (taskPage n o)).present = true := by
    have htarget := hspares.target _ hp (taskPage_slot hlt)
    exact (Pte.target_eq_some.mp (htarget.symm.trans (Pte.target_of_present hpres))).1
  exact hspares.alone _ hp (taskPage_slot hlt) hbefore (hT o hpending) (hun o hpending ho hbefore)

/-- A fault that maps a new page leaves the pages unshared. -/
theorem Unshared.faulted {σ' : Sys} {reading : Option (Nat × Nat)} (hn : 1 ≤ n ∧ n < 64)
    (hlim : current.dataLimit ≤ 0x4000000) (hun : c.Unshared n current) {bytes : Nat → UInt8}
    (hframe : Frame (· = p) c.sys.mem σ'.mem) (hfresh : Fresh c.sys.mem σ'.mem p bytes) :
    Unshared n current ⟨σ', c.todo, reading⟩ := by
  intro o hpending ho hpres
  have hlt : o < 0x4000000 := Nat.lt_of_lt_of_le ho hlim
  have hq := taskPage_mem hn hlt
  rcases eq_or_ne (taskPage n o) p with heq | hne
  · rw [heq]
    exact hfresh.private hframe
  · have hbefore : (entry c.sys.mem (taskPage n o)).present = true :=
      (Pte.target_eq_some.mp ((hframe.ref hq hne).symm.trans (Pte.target_of_present hpres))).1
    refine (hun o hpending ho hbefore).kept hframe hq hne ?_
    rintro r - rfl heq
    obtain ⟨f, -, hun, he, -⟩ := hfresh
    rw [he] at heq
    exact hun _ hq ((Pte.target_of_present hbefore).trans heq.symm)

/-- A step keeps the pages unshared where the call stays alone. -/
theorem Step.kept (hn : 1 ≤ n ∧ n < 64) (hlim : current.dataLimit ≤ 0x4000000) (h : c.Sound lo n current)
    (hstep : c.Step file n current ev c') :
    c'.Sound lo n current ∧ (ev.Alone n current c → c.Unshared n current → c'.Unshared n current) := by
  have tail : ∀ {a : Access} {rest : List Access}, c.todo = a :: rest → ∀ b ∈ rest, b ∈ c.todo := by
    intro a rest htodo b hb
    rw [htodo]
    exact List.mem_cons_of_mem a hb
  cases hstep with
  | @fault o k bytes rest r s htodo hlimit hreading hk habs hexec =>
    have ho : o + k < 0x4000000 := by omega
    rw [h.walk hn ho] at habs
    have habs' := Pte.target_of_absent habs
    rw [h.start] at hexec
    rcases (startNoPage_spec h.sys.inv h.sys.layout hn h.task ho habs').of_ok _ hexec with
      ⟨hr, h', hframe, hcase⟩ | ⟨page, hr, halone, g⟩
    · cases hr
      refine ⟨⟨h.sys.step h' hframe, ?_, fun _ _ hf => by cases hf⟩, fun halone hun => ?_⟩
      · rw [hframe.same.task, h.task]
      · rcases hcase with ⟨-, bytes', hfresh⟩ | ⟨hshares, -⟩
        · exact hun.faulted hn hlim hframe hfresh
        · exact absurd hshares halone
    · cases hr
      refine ⟨⟨h.sys.step_own g.inv (g.frame fun _ => False) fun _ => g.main, ?_, fun f o' hf => ?_⟩, fun _ hun => ?_⟩
      · rw [g.same.task, h.task]
      · cases hf
        refine ⟨Function.update_self .., ho, ?_⟩
        show (entry s (taskPage n (o + k))).target = none
        rw [g.ent]
        exact habs'
      · exact hun.kept (T := fun _ => False) hn hlim (.of_entry g.ent) (fun _ _ => not_false) fun _ ha => ha
  | @read page o s hreading hexec =>
    obtain ⟨hown, ho, habs⟩ := h.reading page o hreading
    rw [h.start] at hexec
    obtain ⟨h', hframe, hfresh⟩ := (finishNoPage_spec h.sys hn ho hown habs).of_ok _ hexec
    refine ⟨⟨h.sys.step_own h' hframe (by simp), ?_, fun _ _ hf => by cases hf⟩, fun _ hun => ?_⟩
    · rw [hframe.same.task, h.task]
    · exact hun.faulted hn hlim hframe hfresh
  | @store o bytes rest htodo hlimit hreading hpres =>
    have hpages : ∀ k < bytes.length, o + k < 0x4000000 ∧ (entry c.sys.mem (taskPage n (o + k))).present = true := by
      intro k hk
      have ho : o + k < 0x4000000 := by omega
      rw [← h.walk hn ho]
      exact ⟨ho, hpres k hk⟩
    have hpage : (current.startCode + o) / 4096 = taskPage n o ∧ (current.startCode + o) % 4096 = o % 4096 := by
      rw [h.start]
      exact ⟨address_page n o, by omega⟩
    obtain ⟨h', hsame, hrefs⟩ := storeBytes_spec hn bytes _ o _ hpage.1 hpage.2 h.sys.inv hpages
    refine ⟨⟨⟨h', h.sys.layout.same hsame, fun f hf => ?_⟩, ?_, fun _ _ hf => by cases hf⟩, fun _ hun => ?_⟩
    · rw [hsame.high]
      exact h.sys.own_main f hf
    · rw [hsame.task, h.task]
    · exact hun.kept (T := fun _ => False) hn hlim (.of_refs hrefs) (fun _ _ => not_false) (tail htodo)
  | @take page s rest htodo hreading hexec =>
    rcases getFreePage_spec h.sys.inv with hget | ⟨f, s₁, hget, g⟩
    · rw [hget] at hexec
      cases hexec
    · rw [hget] at hexec
      cases hexec
      refine ⟨⟨h.sys.step_own g.inv (g.frame fun _ => False) fun _ => g.main, ?_, fun _ _ hf => by cases hf⟩,
        fun _ hun => ?_⟩
      · rw [g.same.task, h.task]
      · exact hun.kept (T := fun _ => False) hn hlim (.of_entry g.ent) (fun _ _ => not_false) (tail htodo)
  | wake htodo hreading =>
    refine ⟨⟨h.sys, h.task, fun _ _ hf => by cases hf⟩, fun _ hun => ?_⟩
    exact hun.kept (T := fun _ => False) hn hlim (.of_entry rfl) (fun _ _ => not_false) (tail htodo)
  | @other op σ hasleep hother hallowed hexec =>
    obtain ⟨hspares, htask, hown⟩ := (hother.spares h.sys hallowed).of_ok _ hexec
    refine ⟨⟨(Op.exec_spec h.sys hallowed).of_ok _ hexec, htask.trans h.task, fun page o hf => ?_⟩, fun halone hun => ?_⟩
    · obtain ⟨ho, hlt, habs⟩ := h.reading page o hf
      exact ⟨hown page o hf ho, hlt, (hspares.target _ (taskPage_mem hn hlt) (taskPage_slot hlt)).trans habs⟩
    · exact hun.kept hn hlim hspares halone fun _ ha => ha
  | @killed op s hasleep hother hallowed hexec =>
    obtain ⟨hspares, htask⟩ := (hother.spares h.sys hallowed).of_error _ hexec s rfl
    have hsys : SysInv lo ⟨s, c.sys.own⟩ := by
      rcases (Op.exec_spec h.sys hallowed).of_error _ hexec with ⟨s', heq, h'⟩ | heq
      · cases heq
        exact h'
      · cases heq
    refine ⟨⟨hsys, htask.trans h.task, fun page o hf => ?_⟩, fun _ hun => ?_⟩
    · obtain ⟨ho, hlt, habs⟩ := h.reading page o hf
      exact ⟨ho, hlt, (hspares.target _ (taskPage_mem hn hlt) (taskPage_slot hlt)).trans habs⟩
    · exact hun.kept hn hlim hspares (fun _ _ => not_false) fun _ ha => ha
  | fill hasleep howner hpage =>
    refine ⟨⟨⟨⟨h.sys.inv.good, h.sys.inv.fixed.setPage _⟩, h.sys.layout, h.sys.own_main⟩, h.task, h.reading⟩,
      fun _ hun => ?_⟩
    exact hun.kept (T := fun _ => False) hn hlim (.of_entry rfl) (fun _ _ => not_false) fun _ ha => ha

theorem not_private {f q : Nat} (htgt : (entry s p).target = some f) (hq : q ∈ userPages) (hne : q ≠ p)
    (hother : (entry s q).target = some f) : ¬ Private s p := by
  rintro ⟨-, hexclusive⟩
  obtain ⟨-, rfl⟩ := Pte.target_eq_some.mp htgt
  exact hexclusive q hq hne hother

/-- A step that does not leave the call alone leaves a page shared that the call has still to store into. -/
theorem Step.shares (hn : 1 ≤ n ∧ n < 64) (hlim : current.dataLimit ≤ 0x4000000) (h : c.Sound lo n current)
    (hstep : c.Step file n current ev c') (hnot : ¬ ev.Alone n current c) :
    ∃ o, c'.Pending o ∧ (entry c'.sys.mem (taskPage n o)).present = true ∧ ¬ Private c'.sys.mem (taskPage n o) := by
  cases hstep with
  | @fault o k bytes rest r s htodo hlimit hreading hk habs hexec =>
    have ho : o + k < 0x4000000 := by omega
    rw [h.walk hn ho] at habs
    rw [h.start] at hexec
    have hpending : c.Pending (o + k) := by
      refine ⟨.put o bytes, ?_, Nat.le_add_right o k, by omega⟩
      rw [htodo]
      exact List.mem_cons_self
    rcases (startNoPage_spec h.sys.inv h.sys.layout hn h.task ho (Pte.target_of_absent habs)).of_ok _ hexec with
      ⟨-, -, hframe, ⟨halone, -⟩ | ⟨-, q, hq, hne, hpres, hshown⟩⟩ | ⟨page, -, halone, -⟩
    · exact absurd halone hnot
    · have htgt := Pte.target_of_present hpres
      refine ⟨o + k, hpending, (Pte.target_eq_some.mp (hshown.trans htgt)).1, ?_⟩
      exact not_private (hshown.trans htgt) hq hne ((hframe.ref hq hne).trans htgt)
    · exact absurd halone hnot
  | @other op σ hasleep hother hallowed hexec =>
    cases op with
    | tryToShare address m k =>
      have hspares := ((hother.spares h.sys hallowed).of_ok _ hexec).1
      obtain ⟨hm, hk, hmk, ha, habs⟩ := hallowed
      obtain ⟨hkn, -, hksome⟩ := hother
      simp only [Event.Alone, Op.Takes, not_forall, not_not] at hnot
      obtain ⟨o, hpending, rfl, hpage, hshare⟩ := hnot
      obtain ⟨t', ht'⟩ := Option.isSome_iff_exists.mp hksome
      simp only [Op.exec, h.task, ht'] at hexec
      cases htry : Mm.tryToShare address current t' c.sys.mem with
      | error e =>
        rw [htry] at hexec
        cases hexec
      | ok r =>
        rw [htry] at hexec
        cases hexec
        rw [← hpage] at hshare
        rcases (tryToShare_spec h.sys.inv hm hk hmk (h.sys.layout _ _ h.task) (h.sys.layout _ _ ht') ha habs).of_ok _
          htry with ⟨-, hunfit⟩ | ⟨-, -, -, -, hcopied⟩
        · exact absurd hshare hunfit
        · have htgt := Pte.target_of_present hshare.1
          have hkeeps := (hspares.target _ (taskPage_mem hm ha) (taskPage_slot ha)).trans htgt
          have hne : taskPage k address ≠ taskPage m address := by
            unfold taskPage
            omega
          refine ⟨o, hpending, ?_, ?_⟩
          · rw [← hpage]
            exact (Pte.target_eq_some.mp hkeeps).1
          · rw [← hpage]
            exact not_private hkeeps (taskPage_mem hk ha) hne (hcopied.target.trans htgt)
    | _ => exact absurd (fun _ _ => not_false) hnot
  | _ => exact absurd trivial hnot

/-! ## Whole calls -/

/-- A step that meets the condition. -/
def AloneStep (file : ExeFile) (n : Nat) (current : Task) (c : UserCall) (ev : Event) (c' : UserCall) : Prop :=
  c.Step file n current ev c' ∧ ev.Alone n current c

/-- Whatever the call stores next goes to pages of its task alone. -/
def StoresPrivate (file : ExeFile) (n : Nat) (current : Task) (c : UserCall) : Prop :=
  ∀ o bytes c', c.Step file n current (.store o bytes) c' →
    ∀ k < bytes.length, Private c.sys.mem (taskPage n (o + k))

/-- The three calls, `sys_read` behind its `verify_area`. -/
inductive Begins (σ : Sys) (current : Task) : UserCall → Prop
  | read {buf : Nat} {count : Int} {blocks : List (List UInt8)} {s : Mem} (hcount : count < 2 ^ 31)
      (hlen : blocks.flatten.length ≤ count) (hverify : verifyArea current buf count σ.mem = .ok s) :
      Begins σ current ⟨⟨s, σ.own⟩, fileRead buf blocks, none⟩
  | pipe {fd0 fd1 fildes : Nat} : Begins σ current ⟨σ, sysPipe fd0 fd1 fildes, none⟩
  | whoami {name : Nat} {msg : List UInt8} : Begins σ current ⟨σ, sysWhoami name msg, none⟩

theorem covers_putEach : ∀ (bytes : List UInt8) (b : Nat), (∃ a ∈ putEach b bytes, a.Covers o) →
    b ≤ o ∧ o < b + bytes.length
  | [], _, ⟨_, ha, _⟩ => absurd ha List.not_mem_nil
  | _ :: bytes, b, ⟨a, ha, hcovers⟩ => by
    rw [List.length_cons]
    rcases List.mem_cons.mp ha with rfl | hrest
    · obtain ⟨h1, h2⟩ := hcovers
      change o < b + 1 at h2
      omega
    · have hlater := covers_putEach bytes (b + 1) ⟨a, hrest, hcovers⟩
      omega

theorem covers_fileRead : ∀ (blocks : List (List UInt8)) (buf : Nat), (∃ a ∈ fileRead buf blocks, a.Covers o) →
    buf ≤ o ∧ o < buf + blocks.flatten.length
  | [], _, ⟨_, ha, _⟩ => absurd ha List.not_mem_nil
  | block :: blocks, buf, ⟨a, ha, hcovers⟩ => by
    rw [List.flatten_cons, List.length_append]
    rcases List.mem_cons.mp ha with rfl | hrest
    · exact hcovers.elim
    · rcases List.mem_append.mp hrest with hblock | hlater
      · have hfirst := covers_putEach block buf ⟨a, hblock, hcovers⟩
        omega
      · have hnext := covers_fileRead blocks (buf + block.length) ⟨a, hlater, hcovers⟩
        omega

theorem Begins.sound (hσ : SysInv lo σ) (hn : 1 ≤ n ∧ n < 64) (ht : σ.mem.task n = some current)
    (h : Begins σ current c) : c.Sound lo n current := by
  cases h with
  | @read buf count blocks s hcount hlen hverify =>
    obtain ⟨h', hsame, -⟩ := verifyArea_private hσ.inv hn (hσ.layout n current ht) hverify
    refine ⟨⟨h', hσ.layout.same hsame, fun f hf => ?_⟩, ?_, fun _ _ hf => by cases hf⟩
    · rw [hsame.high]
      exact hσ.own_main f hf
    · rw [hsame.task, ht]
  | pipe => exact ⟨hσ, ht, fun _ _ hf => by cases hf⟩
  | whoami => exact ⟨hσ, ht, fun _ _ hf => by cases hf⟩

/-- In a call whose pages are unshared the next store is private. -/
theorem Unshared.stores (hn : 1 ≤ n ∧ n < 64) (hlim : current.dataLimit ≤ 0x4000000) (h : c.Sound lo n current)
    (hun : c.Unshared n current) : c.StoresPrivate file n current := by
  intro o bytes c' hstep k hk
  cases hstep with
  | @store _ _ rest htodo hlimit hreading hpres =>
    have ho : o + k < 0x4000000 := by omega
    refine hun (o + k) ⟨.put o bytes, ?_, Nat.le_add_right o k, by omega⟩ (by omega) ?_
    · rw [htodo]
      exact List.mem_cons_self
    · rw [← h.walk hn ho]
      exact hpres k hk

end UserCall

/-- When the stores of the system calls are private, in any state that any interleaving of the tasks can reach and with
the other tasks running wherever the call sleeps. The pages that are there must be mapped by no other task at first,
which `verify_area` sees to unless adding the offset overflows its `int size`; then every store is private in every run
whose steps leave the call alone, and a step that does not leaves a page shared that has still to be stored into. -/
theorem user_stores_private {hi : Nat} {page : Nat → Nat → UInt8} (hlo : lowMem ≤ lo)
    (hhi : hi ≤ lowMem + pagingPages) (h : Reachable file lo hi page σ) (hn : 1 ≤ n ∧ n < 64)
    (ht : σ.mem.task n = some current) (hlim : current.dataLimit ≤ 0x4000000) :
    (∀ buf (count : Int) blocks s, blocks.flatten.length ≤ count → verifyArea current buf count σ.mem = .ok s →
      count + buf % 4096 < 2 ^ 31 → UserCall.Unshared n current ⟨⟨s, σ.own⟩, fileRead buf blocks, none⟩) ∧
    ∀ c₀, UserCall.Begins σ current c₀ →
      (c₀.Unshared n current → ∀ evs c, Run (UserCall.AloneStep file n current) c₀ evs c →
        c.StoresPrivate file n current) ∧
      ∀ evs c ev c', Run (UserCall.Step file n current) c₀ evs c → c.Step file n current ev c' →
        ¬ ev.Alone n current c → ∃ o, c'.Pending o ∧ (entry c'.sys.mem (taskPage n o)).present = true ∧
          ¬ Private c'.sys.mem (taskPage n o) := by
  have hinv := Reachable.inv hlo hhi h
  refine ⟨?_, fun c₀ hbegins => ⟨fun hun evs c hrun => ?_, fun evs c ev c' hrun hstep hnot => ?_⟩⟩
  · intro buf count blocks s hlen hverify hfits o hpending ho hpres
    obtain ⟨-, -, -, -, hnew⟩ := verifyArea_private hinv.inv hn (hinv.layout n current ht) hverify
    obtain ⟨h1, h2⟩ := UserCall.covers_fileRead blocks buf hpending
    have hprivate := hnew hfits (o - buf) (by omega)
    rw [Nat.add_sub_cancel' h1] at hprivate
    exact hprivate (Nat.lt_of_lt_of_le ho hlim) hpres
  · -- the pages stay unshared step by step, and so each store finds them
    have hkept : c.Sound lo n current ∧ c.Unshared n current := by
      refine Run.inv (I := fun c => c.Sound lo n current ∧ c.Unshared n current) (fun c ev c' hc hstep => ?_)
        ⟨hbegins.sound hinv hn ht, hun⟩ hrun
      obtain ⟨hsound, hunshared⟩ := hstep.1.kept hn hlim hc.1
      exact ⟨hsound, hunshared hstep.2 hc.2⟩
    exact hkept.2.stores hn hlim hkept.1
  · have hsound : c.Sound lo n current :=
      Run.inv (I := fun c => c.Sound lo n current) (fun _ _ _ hc hstep => (hstep.kept hn hlim hc).1)
        (hbegins.sound hinv hn ht) hrun
    exact hstep.shares hn hlim hsound hnot

/-! ## Two runs -/

namespace SharedStore

open LostStore (task started loaded)

theorem reach_loaded : Reachable LostStore.file 1024 4096 (fun _ _ => 0) ⟨loaded, fun _ => 0⟩ := by
  have hexec : Step LostStore.file (boot 1024 4096 fun _ _ => 0) ⟨started, fun _ => 0⟩ := by
    refine Step.done (Op.tasks started.task started.iCount) ?_ rfl
    intro m t hm
    rcases eq_or_ne m 1 with rfl | h1
    · cases hm
      rfl
    · have h0 : (if m = 0 then some initTask else none) = some t := by
        rw [← hm]
        exact (Function.update_of_ne h1 (some (task 1)) fun n =>
          if n = 0 then some initTask else none).symm
      split at h0
      · next hm0 =>
        cases h0
        rw [hm0]
        rfl
      · cases h0
  have hfault : Step LostStore.file ⟨started, fun _ => 0⟩ ⟨loaded, fun _ => 0⟩ := by
    have habs := LostStore.run_values.1
    rw [walk_eq (by simp)] at habs
    refine Step.done (Op.doNoPage 0x4000000 1) ⟨by decide, by decide, Pte.target_of_absent habs⟩ ?_
    show (doNoPage LostStore.file 0x4000000 1 (task 1) started >>= _) = _
    rw [LostStore.load_ok]
    rfl
  exact (Relation.ReflTransGen.refl.tail hexec).tail hfault

/-- Task 3 runs the executable of task 1, and none of its pages is there yet. -/
def second : Mem := { loaded.setTask 3 (some (task 3)) with iCount := fun _ => 2 }

theorem reach_second : Reachable LostStore.file 1024 4096 (fun _ _ => 0) ⟨second, fun _ => 0⟩ := by
  refine reach_loaded.tail (Step.done (Op.tasks second.task second.iCount) ?_ rfl)
  intro m t hm
  have hlayout := (Reachable.inv (by decide) (by decide) reach_loaded).layout
  rcases eq_or_ne m 3 with rfl | h3
  · cases hm
    rfl
  · exact hlayout m t (hm ▸ (Function.update_of_ne h3 _ _).symm)

def taken : Mem := (getFreePage second).2

def faulted : Mem := ((startNoPage 0xC000000 3 (task 3) taken).toOption.map fun r => r.2).getD taken

theorem ok_of_fst {α : Type} {r : Except Stop (α × Mem)} {x : α} (d : Mem)
    (h : r.toOption.map (fun r => r.1) = some x) : r = .ok (x, (r.toOption.map fun r => r.2).getD d) := by
  cases r with
  | error e => cases h
  | ok r =>
    cases h
    rfl

end SharedStore

/-- `pipe` stores the first descriptor into the page it has just shared with task 1, where the byte
was 0. -/
theorem user_stores_shared : ∃ σ, Reachable LostStore.file 1024 4096 (fun _ _ => 0) σ ∧
    σ.mem.task 3 = some (LostStore.task 3) ∧
    ∃ evs c c', Run (UserCall.Step LostStore.file 3 (LostStore.task 3)) ⟨σ, sysPipe 3 4 0, none⟩ evs c ∧
      c.Step LostStore.file 3 (LostStore.task 3) (.store 0 (longBytes 3)) c' ∧
      ¬ Private c.sys.mem (taskPage 3 0) ∧ σ.mem.page (walk σ.mem 0x4000000).frame 0 = 0 ∧
      c'.sys.mem.page (walk c'.sys.mem 0x4000000).frame 0 = 3 := by
  have hget : getFreePage SharedStore.second = (some 4093, SharedStore.taken) := getFreePage_of (by decide +kernel)
  have hwake : (⟨⟨SharedStore.second, fun _ => 0⟩, sysPipe 3 4 0, none⟩ : UserCall).Step LostStore.file 3
      (LostStore.task 3) .wake
      ⟨⟨SharedStore.second, fun _ => 0⟩, [.take, .put 0 (longBytes 3), .put 4 (longBytes 4)], none⟩ := .wake rfl rfl
  have htake : (⟨⟨SharedStore.second, fun _ => 0⟩, [.take, .put 0 (longBytes 3), .put 4 (longBytes 4)], none⟩ :
      UserCall).Step LostStore.file 3 (LostStore.task 3) .take
      ⟨⟨SharedStore.taken, Function.update (fun _ => 0) 4093 1⟩, [.put 0 (longBytes 3), .put 4 (longBytes 4)], none⟩ :=
    .take rfl rfl hget
  have hfault : (⟨⟨SharedStore.taken, Function.update (fun _ => 0) 4093 1⟩,
      [.put 0 (longBytes 3), .put 4 (longBytes 4)], none⟩ : UserCall).Step LostStore.file 3 (LostStore.task 3) (.fault 0)
      ⟨⟨SharedStore.faulted, Function.update (fun _ => 0) 4093 1⟩, [.put 0 (longBytes 3), .put 4 (longBytes 4)], none⟩ := by
    have haddress : (LostStore.task 3).startCode + (0 + 0) = 0xC000000 := rfl
    refine .fault (k := 0) rfl (by decide) rfl (by decide) ?_ (r := none) ?_
    · rw [haddress]
      decide +kernel
    · rw [haddress]
      exact SharedStore.ok_of_fst SharedStore.taken (by decide +kernel)
  have hpres : ∀ k < (longBytes 3).length,
      (walk SharedStore.faulted ((LostStore.task 3).startCode + (0 + k))).present = true := by decide +kernel
  refine ⟨_, SharedStore.reach_second, rfl, _, _, _, ((Run.nil.snoc hwake).snoc htake).snoc hfault,
    .store rfl (by decide) rfl hpres, fun hprivate => ?_, by decide +kernel, by decide +kernel⟩
  refine hprivate.2 (taskPage 1 0) (taskPage_mem (by decide) (by decide)) (by decide) ?_
  decide +kernel

/-- Task 1 has its page for itself, and reads one byte while another task takes a page. -/
theorem user_stores_private_read : ∃ c₀ evs c c', UserCall.Begins ⟨LostStore.loaded, fun _ => 0⟩ (LostStore.task 1) c₀ ∧
    Run (UserCall.AloneStep LostStore.file 1 (LostStore.task 1)) c₀ evs c ∧
    c.Step LostStore.file 1 (LostStore.task 1) (.store 0 [5]) c' ∧ Private c.sys.mem (taskPage 1 0) := by
  have hreach := SharedStore.reach_loaded
  have hget : getFreePage LostStore.loaded = (some 4093, (getFreePage LostStore.loaded).2) :=
    getFreePage_of (by decide +kernel)
  have hpres : (LostStore.loaded.pgDir (dirIndex 0x4000000)).present = true := by decide +kernel
  have hrw : ¬ ((LostStore.loaded.pageTable (LostStore.loaded.pgDir (dirIndex 0x4000000)).frame
      (tableIndex 0x4000000)).present = true ∧ ¬ (LostStore.loaded.pageTable
        (LostStore.loaded.pgDir (dirIndex 0x4000000)).frame (tableIndex 0x4000000)).rw = true) := by decide +kernel
  have hwrite : writeVerify 0x4000000 LostStore.loaded = .ok LostStore.loaded := by
    unfold writeVerify
    simp only [hpres, if_true]
    rw [if_neg hrw]
  have hverify : verifyArea (LostStore.task 1) 0 1 LostStore.loaded = .ok LostStore.loaded := by
    unfold verifyArea
    show verifyPages 1 0x4000000 LostStore.loaded = _
    rw [verifyPages, hwrite]
    rfl
  have hbegins : UserCall.Begins ⟨LostStore.loaded, fun _ => 0⟩ (LostStore.task 1)
      ⟨⟨LostStore.loaded, fun _ => 0⟩, fileRead 0 [[5]], none⟩ := .read (by decide) (by decide) hverify
  obtain ⟨hunshared, hall⟩ := user_stores_private (by decide) (by decide) hreach (n := 1) (by decide) rfl (by decide)
  have hother : (⟨⟨LostStore.loaded, fun _ => 0⟩, fileRead 0 [[5]], none⟩ : UserCall).Step LostStore.file 1
      (LostStore.task 1) (.other .getFreePage)
      ⟨⟨(getFreePage LostStore.loaded).2, Function.update (fun _ => 0) 4093 1⟩, fileRead 0 [[5]], none⟩ := by
    refine .other (.inr ⟨_, rfl⟩) trivial trivial ?_
    rw [Op.exec, hget]
  have hfirst : UserCall.AloneStep LostStore.file 1 (LostStore.task 1) _ _ _ := ⟨hother, fun _ _ => not_false⟩
  have hrun := (Run.nil.snoc hfirst).snoc ⟨.wake rfl rfl, trivial⟩
  refine ⟨_, _, _, _, hbegins, hrun, .store rfl (by decide) rfl (by decide +kernel), ?_⟩
  exact (hall _ hbegins).1 (hunshared 0 1 [[5]] _ (by decide) hverify (by decide)) _ _ hrun 0 [5] _
    (.store rfl (by decide) rfl (by decide +kernel)) 0 (by decide)

end Linux011.Mm
