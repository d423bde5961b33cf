import Linux011.Exec.Strings
import Linux011.Mm.UserBytes

/-!
# The stack of a new program

From the point where `do_execve` gives up the old memory to the end of `create_tables`: the pages of the
strings are mapped at the top of the 64 MB of the task, and the tables are stored below the strings. The
strings are found again from their zeros only.
-/

namespace Linux011.Exec

open Linux011.Lib Linux011.Mm

section Code

variable (file : ExeFile) (cur : Nat) (current : Task)

/-- `get_fs_byte` -/
def getFsByte (o : Nat) (s : Mem) : Except Stop (UInt8 × Mem) :=
  if current.dataLimit ≤ o then .error (.die "general protection")
  else do
    let s ← demandPage file cur current (current.startCode + o) s
    return (s.page (walk s (current.startCode + o)).frame ((current.startCode + o) % 4096), s)

/-- `while (get_fs_byte(p++))`, with `k` bytes left below the limit. -/
def skipString : (k : Nat) → (p : Nat) → Mem → Except Stop (Nat × Mem)
  | 0, _, _ => .error (.die "general protection")
  | k + 1, p, s => do
    let r ← getFsByte file cur current p s
    if r.1 = 0 then return (p + 1, r.2) else skipString k (p + 1) r.2

/-- One of the two loops of `create_tables`, and the zero after it: the strings from `p` on, and their table
at `argv`. -/
def putStrings : (argc : Nat) → (argv p : Nat) → Mem → Except Stop (Nat × Mem)
  | 0, argv, p, s => do
    let s ← putFsLong file cur current 0 argv s
    return (p, s)
  | argc + 1, argv, p, s => do
    let s ← putFsLong file cur current p argv s
    let r ← skipString file cur current (current.dataLimit - p) p s
    putStrings argc (argv + 4) r.1 r.2

/-- `create_tables` -/
def createTables (p argc envc : Nat) (s : Mem) : Except Stop (Nat × Mem) := do
  let envp := p / 4 * 4 - 4 * (envc + 1)
  let argv := envp - 4 * (argc + 1)
  let s ← putFsLong file cur current envp (argv - 4) s
  let s ← putFsLong file cur current argv (argv - 8) s
  let s ← putFsLong file cur current argc (argv - 12) s
  let r ← putStrings file cur current argc argv p s
  let r ← putStrings file cur current envc envp r.1 r.2
  return (argv - 12, r.2)

end Code

/-- One turn of the loop of `change_ldt`. What `put_page` returns is not looked at. -/
def putArgPage (dataBase : Nat) (page : Nat → Option Nat) (s : Mem) (i : Nat) : Mem :=
  match page i with
  | some f => (putPage f (dataBase + 0x4000000 - (32 - i) * 4096) s).2
  | none => s

/-- The loop of `change_ldt`. -/
def mapArgPages (dataBase : Nat) (page : Nat → Option Nat) (s : Mem) : Mem :=
  (List.range 32).reverse.foldl (putArgPage dataBase page) s

/-- The memory in `do_execve` from `free_page_tables` on, for a task that has taken the inode of its new
executable already: the new stack pointer. -/
def newStack (file : ExeFile) (cur : Nat) (t : Task) (codeLimit argc envc : Nat) (p : BitVec 32) (s : Args) :
    Except Stop (Nat × Mem) := do
  let mem ← freePageTables t.startCode t.codeLimit s.mem
  let mem ← freePageTables t.startCode t.dataLimit mem
  let t := { t with codeLimit, dataLimit := 0x4000000 }
  let mem := mapArgPages t.startCode s.page (mem.setTask cur (some t))
  createTables file cur t (p.toNat + 0x4000000 - 0x20000) argc envc mem

/-- The pages of the strings belong to `do_execve`, and all else is as it was. -/
structure Owned (lo : Nat) (own₀ : Nat → Nat) (mem₀ : Mem) (mem : Mem) (page : Nat → Option Nat) : Prop where
  own : ∃ own, Inv lo own mem ∧ (∀ k f, page k = some f → own f = 1) ∧
    ∀ f, (∀ k, page k ≠ some f) → own f = own₀ f
  main : ∀ k f, page k = some f → lo ≤ f ∧ f < mem.highMemory
  frame : Frame (fun _ => False) mem₀ mem
  dir : mem.pgDir = mem₀.pgDir
  entry : Mm.entry mem = Mm.entry mem₀

/-! ## What `copy_strings` keeps -/

theorem copyByte_eq {oldFs : Seg} {kmem : Nat} {c : Cursor} {b : UInt8} : c.copyByte oldFs kmem b =
    ((if c.offset - 1 < 0 then
        Cursor.findPage oldFs kmem { c with p := c.p - 1, offset := c.offset - 1 }
      else .ok { c with p := c.p - 1, offset := c.offset - 1 }) >>= fun c => .ok (c.put b)) := by
  unfold Cursor.copyByte
  dsimp only
  split <;> rfl

section Keeps

variable {I : Mem → (Nat → Option Nat) → Prop}
  (hput : ∀ mem page k f bytes, page k = some f → I mem page → I (mem.setPage f bytes) page)
  (htake : ∀ mem page k f mem', page k = none → getFreePage mem = (some f, mem') → I mem page →
    I mem' (Function.update page k (some f)))

/-- A call that returns 0 keeps it too. -/
def ShortKeeps (I : Mem → (Nat → Option Nat) → Prop) (e : CopyStop) : Prop :=
  ∀ s, e = .short s → I s.mem s.page

/-- The page at hand is one of the pages of the strings. -/
def Cursor.AtHand (c : Cursor) : Prop := c.offset = 0 ∨ ∃ k, c.page k = some c.pag

include htake in
theorem findPage_keeps {oldFs : Seg} {kmem : Nat} {c : Cursor} (h : I c.mem c.page) :
    Post (c.findPage oldFs kmem) (fun c' => I c'.mem c'.page ∧ ∃ k, c'.page k = some c'.pag)
      (ShortKeeps I) := by
  unfold Cursor.findPage
  dsimp only
  split
  · exact Post.stop fun s hs => by cases hs
  · split
    · next f hf => exact Post.ret ⟨h, _, hf⟩
    · next hnone =>
      rcases getFreePage_cases c.mem with ⟨hget, -⟩ | ⟨f, mem, hget, -⟩
      · rw [hget]
        refine Post.stop fun s hs => ?_
        cases hs
        exact h
      · rw [hget]
        exact Post.ret ⟨htake _ _ _ _ _ hnone hget h, _, Function.update_self ..⟩

include hput htake

theorem copyByte_keeps {oldFs : Seg} {kmem : Nat} {c : Cursor} {b : UInt8} (h : I c.mem c.page)
    (hpag : c.AtHand) :
    Post (c.copyByte oldFs kmem b) (fun c' => I c'.mem c'.page ∧ c'.AtHand) (ShortKeeps I) := by
  rw [copyByte_eq]
  have hpage : Post (if c.offset - 1 < 0 then
        Cursor.findPage oldFs kmem { c with p := c.p - 1, offset := c.offset - 1 }
      else .ok { c with p := c.p - 1, offset := c.offset - 1 })
      (fun c' => I c'.mem c'.page ∧ ∃ k, c'.page k = some c'.pag) (ShortKeeps I) := by
    split
    · exact findPage_keeps htake h
    · next hoff => exact Post.ret ⟨h, hpag.resolve_left fun hzero => hoff (by omega)⟩
  refine Post.bind hpage fun c₁ h₁ => ?_
  obtain ⟨h₁, k, hk⟩ := h₁
  exact Post.ret ⟨hput _ _ k _ _ hk h₁, .inr ⟨k, hk⟩⟩

theorem copyLoop_keeps {oldFs : Seg} {kmem : Nat} {argv : List CStr} (n : Nat) : ∀ {c : Cursor},
    I c.mem c.page → c.AtHand →
    Post (c.copyLoop oldFs kmem argv n) (fun c' => I c'.mem c'.page) (ShortKeeps I) := by
  induction n with
  | zero => exact fun h _ => Post.ret h
  | succ n ih =>
    intro c h hpag
    unfold Cursor.copyLoop
    split
    · exact Post.stop fun s hs => by cases hs
    · next tmp _ =>
      dsimp only
      generalize hc₁ : (if kmem = 1 then ({ c with fs := oldFs } : Cursor) else c) = c₁
      have h₁ : I c₁.mem c₁.page ∧ c₁.AtHand := by
        rw [← hc₁]
        split <;> exact ⟨h, hpag⟩
      split
      · refine Post.stop fun s hs => ?_
        cases hs
        exact h₁.1
      · refine Post.bind (Post.foldlM (I := fun _ c => I c.mem c.page ∧ c.AtHand) ?_ _ c₁ h₁) ?_
        · exact fun b bs c h => copyByte_keeps hput htake h.1 h.2
        · exact fun c₂ h₂ => ih h₂.1 h₂.2

theorem copyStrings_keeps {s s' : Args} {call : Copy} (h : I s.mem s.page) (hs : s.copyStrings call = .ok s') :
    I s'.mem s'.page := by
  unfold Args.copyStrings at hs
  split at hs
  · cases hs
    exact h
  · dsimp only at hs
    generalize hc : ({ s with fs := _, offset := 0, pag := 0 } : Cursor) = c at hs
    have hstart : I c.mem c.page ∧ c.AtHand := by
      rw [← hc]
      exact ⟨h, .inl rfl⟩
    obtain ⟨hok, hshort⟩ := @copyLoop_keeps I hput htake s.fs call.fromKmem call.argv call.argc.toNat c
      hstart.1 hstart.2
    split at hs
    · next c' hc' =>
      cases hs
      exact hok c' hc'
    · next s₁ hs₁ =>
      cases hs
      exact hshort _ hs₁ s₁ rfl
    · cases hs

theorem copyCalls_keeps {calls : List Copy} : ∀ {s s' : Args}, I s.mem s.page →
    calls.foldlM Args.copyStrings s = .ok s' → I s'.mem s'.page := by
  induction calls with
  | nil =>
    intro s s' h hs
    cases hs
    exact h
  | cons call calls ih =>
    intro s s' h hs
    obtain ⟨s₁, hs₁, hrest⟩ := ok_of_bind hs
    exact ih (copyStrings_keeps hput htake h hs₁) hrest

end Keeps

variable {lo : Nat} {own₀ : Nat → Nat} {mem₀ : Mem}

theorem owned_start (h : Inv lo own₀ mem₀) : Owned lo own₀ mem₀ mem₀ fun _ => none :=
  ⟨⟨own₀, h, fun _ _ hf => (by cases hf), fun _ _ => rfl⟩, fun _ _ hf => (by cases hf), Frame.refl _ _, rfl, rfl⟩

/-- A page that the kernel owns is mapped nowhere. -/
theorem not_mapped {own : Nat → Nat} {mem : Mem} {f p : Nat} (h : Inv lo own mem) (ho : own f = 1)
    (hf : lo ≤ f ∧ f < mem.highMemory) (hp : p ∈ userPages) : (entry mem p).target ≠ some f := by
  have hzero := h.good.one_role f hf.1 hf.2 (by rw [view_own, ho]; omega)
  exact refs_eq_zero_iff.mp hzero p hp

theorem Owned.put {mem : Mem} {page : Nat → Option Nat} {k f : Nat} {bytes : Nat → UInt8}
    (h : Owned lo own₀ mem₀ mem page) (hf : page k = some f) : Owned lo own₀ mem₀ (mem.setPage f bytes) page := by
  obtain ⟨own, hinv, hheld, hothers⟩ := h.own
  refine ⟨⟨own, ⟨hinv.good, hinv.fixed.setPage bytes⟩, hheld, hothers⟩, h.main, ?_, h.dir, h.entry⟩
  refine h.frame.trans (Frame.of_entry ⟨rfl, rfl, rfl⟩ (fun _ _ _ => rfl) fun p hp _ g hg => ?_)
  apply Function.update_of_ne
  rintro rfl
  exact not_mapped hinv (hheld k g hf) (h.main k g hf) hp hg

theorem Owned.take {mem mem' : Mem} {page : Nat → Option Nat} {k f : Nat} (h : Owned lo own₀ mem₀ mem page)
    (hnone : page k = none) (hget : getFreePage mem = (some f, mem')) :
    Owned lo own₀ mem₀ mem' (Function.update page k (some f)) := by
  obtain ⟨own, hinv, hheld, hothers⟩ := h.own
  rcases getFreePage_spec hinv with hno | ⟨g, mem₁, hgot, g₁⟩
  · rw [hget] at hno
    cases hno
  · rw [hget] at hgot
    cases hgot
    refine ⟨⟨_, g₁.inv, fun l g hg => ?_, fun g hg => ?_⟩, fun l g hg => ?_, h.frame.trans (g₁.frame _),
      g₁.dir.trans h.dir, g₁.ent.trans h.entry⟩
    · by_cases hgf : g = f
      · rw [hgf, Function.update_self]
      · have hl : l ≠ k := by
          rintro rfl
          rw [Function.update_self] at hg
          exact hgf (Option.some.inj hg).symm
        rw [Function.update_of_ne hl] at hg
        rw [Function.update_of_ne hgf, hheld l g hg]
    · have hgf : g ≠ f := by
        rintro rfl
        exact hg k (Function.update_self ..)
      rw [Function.update_of_ne hgf]
      refine hothers g fun l hl => ?_
      have hlk : l ≠ k := by
        rintro rfl
        rw [hnone] at hl
        cases hl
      exact hg l ((Function.update_of_ne hlk ..).trans hl)
    · rw [g₁.same.high]
      by_cases hl : l = k
      · subst hl
        rw [Function.update_self] at hg
        cases hg
        exact g₁.main
      · rw [Function.update_of_ne hl] at hg
        exact h.main l g hg

/-- Whatever becomes of the calls. -/
theorem copyCalls_owned {fs : Seg} {calls : List Copy} {s' : Args} (h : Inv lo own₀ mem₀)
    (hs : calls.foldlM Args.copyStrings (Args.start mem₀ fs) = .ok s') : Owned lo own₀ mem₀ s'.mem s'.page := by
  refine @copyCalls_keeps (Owned lo own₀ mem₀) ?_ ?_ calls (Args.start mem₀ fs) s' (owned_start h) hs
  · exact fun mem page k f bytes hf hown => hown.put hf
  · exact fun mem page k f mem' hnone hget hown => hown.take hnone hget

/-! ## Giving up the old memory -/

/-- All that `mem` maps is mapped in `mem₁` too. -/
structure Fewer (mem₁ mem : Mem) : Prop where
  same : Same mem₁ mem
  dirs : ∀ d t, tableOf mem d = some t → tableOf mem₁ d = some t
  pages : ∀ p ∈ userPages, ∀ f, (entry mem p).target = some f → (entry mem₁ p).target = some f
  bytes : mem.page = mem₁.page

theorem Fewer.trans {mem₁ mem₂ mem₃ : Mem} (h : Fewer mem₁ mem₂) (h' : Fewer mem₂ mem₃) : Fewer mem₁ mem₃ :=
  ⟨h.same.trans h'.same, fun d t ht => h.dirs d t (h'.dirs d t ht),
    fun p hp f hf => h.pages p hp f (h'.pages p hp f hf), h'.bytes.trans h.bytes⟩

theorem freeTable_page {t : Nat} {mem mem' : Mem} (h : freeTable t mem = .ok mem') : mem'.page = mem.page := by
  refine (Post.foldlM (Q := fun _ => True) (I := fun _ s => s.page = mem.page) ?_ _ mem rfl).of_ok mem' h
  intro i is s hs
  exact ⟨fun s' hs' => (freeEntry_page hs').trans hs, fun _ _ => trivial⟩

theorem freeDirs_page (n : Nat) : ∀ {d : Nat} {mem mem' : Mem}, freeDirs n d mem = .ok mem' →
    mem'.page = mem.page := by
  induction n with
  | zero =>
    intro d mem mem' h
    cases h
    rfl
  | succ n ih =>
    intro d mem mem' h
    cases hpres : (mem.pgDir d).present with
    | false =>
      rw [freeDirs_absent hpres] at h
      exact ih h
    | true =>
      rw [freeDirs_present hpres] at h
      obtain ⟨mem₁, h₁, h⟩ := ok_of_bind h
      obtain ⟨mem₂, h₂, h⟩ := ok_of_bind h
      exact (ih h).trans ((freePage_page h₂).trans (freeTable_page h₁))

theorem freePageTables_fewer {own : Nat → Nat} {mem : Mem} {n size : Nat} (h : Inv lo own mem)
    (hn : 1 ≤ n ∧ n < 64) (hsize : size ≤ 0x4000000) :
    Post (freePageTables (n * 0x4000000) size mem)
      (fun mem' => Inv lo own mem' ∧ Fewer mem mem' ∧
        ∀ d, 16 * n ≤ d → d < 16 * n + (size + 0x3fffff) / 0x400000 → tableOf mem' d = none)
      (fun _ => False) := by
  have hdir : dirIndex (n * 0x4000000) = 16 * n := by
    unfold dirIndex
    omega
  rw [freePageTables, if_neg (by omega), if_neg (by omega), hdir]
  refine ((freeDirs_spec _ _ mem h (by omega) (by omega)).and (Post.self _)).mono ?_ fun _ hq => hq.1
  rintro mem' ⟨⟨h', hframe, hnone, hkeep⟩, hok⟩
  refine ⟨h', ⟨hframe.same, fun d t ht => ?_, fun p hp f hf => ?_, freeDirs_page _ hok⟩, hnone⟩
  · have hout : ¬ (16 * n ≤ d ∧ d < 16 * n + (size + 0x3fffff) / 0x400000) := fun hin => by
      rw [hnone d hin.1 hin.2] at ht
      cases ht
    unfold tableOf at ht ⊢
    rwa [hkeep d hout] at ht
  · by_cases hin : 16 * n ≤ p / 1024 ∧ p / 1024 < 16 * n + (size + 0x3fffff) / 0x400000
    · rw [entry_of_none (hnone _ hin.1 hin.2)] at hf
      cases hf
    · rwa [hframe.ref hp hin] at hf

/-- The page of a table that is given up is free. -/
theorem free_of_table {own : Nat → Nat} {mem₁ mem : Mem} {d t : Nat} (h₁ : Inv lo own mem₁) (h : Inv lo own mem)
    (hfewer : Fewer mem₁ mem) (ht : tableOf mem₁ d = some t) (hnone : tableOf mem d = none) :
    mem.memMap (mapNr t) = 0 := by
  obtain ⟨hmain, hhigh⟩ := table_main h₁ ht
  have hd := (tableOf_eq_some.mp ht).1
  have hpos : 0 < (view mem₁ own).dirRefs t := refs_pos_iff.mpr ⟨d, hd, ht⟩
  have hown : own t = 0 := by
    have hone := h₁.good.one_owner t hmain hhigh
    rw [view_own] at hone
    omega
  have hptes : (view mem₁ own).pteRefs t = 0 :=
    h₁.good.one_role t hmain hhigh (Nat.lt_of_lt_of_le hpos (Nat.le_add_right ..))
  have hdirs' : (view mem own).dirRefs t = 0 := by
    refine refs_eq_zero_iff.mpr fun d' hd' ht' => ?_
    rw [table_inj h₁ ht d' (hfewer.dirs d' t ht')] at ht'
    change tableOf mem d = some t at ht'
    rw [hnone] at ht'
    cases ht'
  have hptes' : (view mem own).pteRefs t = 0 :=
    refs_eq_zero_iff.mpr fun p hp hp' => refs_eq_zero_iff.mp hptes p hp (hfewer.pages p hp t hp')
  have hhigh' : t < mem.highMemory := by
    rw [hfewer.same.high]
    exact hhigh
  have hcount := h.good.count t hmain hhigh'
  rw [view_cnt (Nat.le_trans h₁.fixed.lo_le hmain), hptes', hdirs', view_own, hown] at hcount
  exact UInt8.toNat_inj.mp hcount

/-! ## Mapping the pages of the strings -/

/-- The pages of `todo` are still to be mapped, all others are. -/
structure Mapping (lo n : Nat) (page : Nat → Option Nat) (base : Mem) (todo : List Nat) (mem : Mem) : Prop where
  own : ∃ own, Inv lo own mem ∧ ∀ k ∈ todo, ∀ f, page k = some f → own f = 1
  target : ∀ j < 16384, (entry mem (n * 16384 + j)).target =
    if 16352 ≤ j ∧ j - 16352 ∉ todo then page (j - 16352) else none
  bytes : ∀ k f, page k = some f → mem.page f = base.page f
  same : Same base mem
  table : (mem.pgDir (16 * n + 15)).present = true ∨ (getFreePage mem).1 ≠ none

theorem argAddress {n k : Nat} (hn : 1 ≤ n ∧ n < 64) (hk : k < 32) :
    let a := n * 0x4000000 + 0x4000000 - (32 - k) * 4096
    a / 4096 = n * 16384 + (16352 + k) ∧ dirIndex a = 16 * n + 15 := by
  dsimp only
  unfold dirIndex
  omega

/-- `put_page`, with a page table at hand or a page for one. -/
theorem putPage_done {own : Nat → Nat} {mem : Mem} {f a : Nat} (h : Inv lo own mem) (hf : lo ≤ f ∧ f < mem.highMemory)
    (ho : own f = 1) (hp : a / 4096 ∈ userPages) (habs : (entry mem (a / 4096)).target = none)
    (htable : (mem.pgDir (dirIndex a)).present = true ∨ (getFreePage mem).1 ≠ none) :
    ∃ mem', (putPage f a mem).2 = mem' ∧ Inv lo (Function.update own f 0) mem' ∧ Frame (· = a / 4096) mem mem' ∧
      entry mem' (a / 4096) = Pte.user f ∧ (∀ g, own g = 1 → mem'.page g = mem.page g) ∧
      (mem'.pgDir (dirIndex a)).present = true := by
  cases hpres : (mem.pgDir (dirIndex a)).present with
  | true =>
    have hput : putPage f a mem = _ := putPage_present hpres
    rcases putPage_spec h hf ho hp habs with hno | ⟨mem', hdone, h', hframe, hent, -⟩
    · rw [hput] at hno
      cases hno
    · rw [hdone] at hput
      cases hput
      rw [hdone]
      exact ⟨_, rfl, h', hframe, hent, fun _ _ => rfl, hpres⟩
  | false =>
    have hget : ∃ t mem₁, getFreePage mem = (some t, mem₁) ∧ Got lo own mem t mem₁ := by
      rcases getFreePage_spec h with hnone | hsome
      · rw [hnone, hpres] at htable
        simp at htable
      · exact hsome
    obtain ⟨t, mem₁, hget, g⟩ := hget
    have hput : putPage f a mem = _ := putPage_table hpres hget
    rcases putPage_spec h hf ho hp habs with hno | ⟨mem', hdone, h', hframe, hent, -⟩
    · rw [hput] at hno
      cases hno
    · rw [hdone] at hput
      cases hput
      rw [hdone]
      refine ⟨_, rfl, h', hframe, hent, fun x hx => ?_, ?_⟩
      · -- the new table is none of the owned pages
        show mem₁.page x = mem.page x
        have hne : x ≠ t := by
          rintro rfl
          rw [g.own_zero] at hx
          cases hx
        rw [g.page, Function.update_of_ne hne]
      · show (Function.update mem₁.pgDir (dirIndex a) (Pte.user t) (dirIndex a)).present = true
        rw [Function.update_self]
        rfl

theorem Mapping.step {n k : Nat} {page : Nat → Option Nat} {base mem : Mem} {todo : List Nat} (hn : 1 ≤ n ∧ n < 64)
    (hmain : ∀ k f, page k = some f → k < 32 ∧ lo ≤ f ∧ f < base.highMemory)
    (hinj : ∀ k l f, page k = some f → page l = some f → k = l) (hk : k < 32) (hnot : k ∉ todo)
    (h : Mapping lo n page base (k :: todo) mem) :
    Mapping lo n page base todo (putArgPage (n * 0x4000000) page mem k) := by
  obtain ⟨own, hinv, hheld⟩ := h.own
  unfold putArgPage
  cases hpage : page k with
  | none =>
    -- there is no page for this place, and the entry stays empty
    refine ⟨⟨own, hinv, fun l hl => hheld l (List.mem_cons_of_mem k hl)⟩, fun j hj => ?_, h.bytes, h.same, h.table⟩
    rw [h.target j hj]
    by_cases hjk : j - 16352 = k
    · simp [hjk, hpage]
    · simp [hjk]
  | some f =>
    obtain ⟨haddr, hdir⟩ := argAddress hn hk
    have hone := hheld k List.mem_cons_self f hpage
    have hmem : n * 16384 + (16352 + k) ∈ userPages := by
      rw [mem_userPages]
      omega
    have habs : (entry mem (n * 16384 + (16352 + k))).target = none := by
      rw [h.target _ (by omega), if_neg]
      simp
    have htable := h.table
    rw [← hdir] at htable
    rw [← haddr] at hmem habs
    have hf := (hmain k f hpage).2
    rw [← h.same.high] at hf
    obtain ⟨mem', hput, h', hframe, hent, hothers, hpres⟩ := putPage_done hinv hf hone hmem habs htable
    rw [haddr] at hframe hent
    rw [hdir] at hpres
    dsimp only
    rw [hput]
    refine ⟨⟨_, h', fun l hl g hg => ?_⟩, fun j hj => ?_, fun l g hg => ?_, h.same.trans hframe.same, .inl hpres⟩
    · have hgf : g ≠ f := by
        rintro rfl
        exact hnot (hinj k l g hpage hg ▸ hl)
      rw [Function.update_of_ne hgf]
      exact hheld l (List.mem_cons_of_mem k hl) g hg
    · by_cases hjk : j = 16352 + k
      · subst hjk
        rw [hent, if_pos ⟨Nat.le_add_right .., by rwa [Nat.add_sub_cancel_left]⟩, Nat.add_sub_cancel_left, hpage]
        rfl
      · have hp : n * 16384 + j ∈ userPages := by
          rw [mem_userPages]
          omega
        rw [hframe.ref hp (by omega), h.target j hj]
        by_cases hlow : 16352 ≤ j
        · have hne : j - 16352 ≠ k := by omega
          simp [hne]
        · simp [hlow]
    · rw [← h.bytes l g hg]
      by_cases hl : l ∈ k :: todo
      · exact hothers g (hheld l hl g hg)
      · -- the page is mapped already
        have hl32 := (hmain l g hg).1
        have htgt := h.target (16352 + l) (by omega)
        rw [if_pos ⟨Nat.le_add_right .., by rwa [Nat.add_sub_cancel_left]⟩, Nat.add_sub_cancel_left, hg] at htgt
        have hp : n * 16384 + (16352 + l) ∈ userPages := by
          rw [mem_userPages]
          omega
        have hlk : l ≠ k := fun heq => hl (heq ▸ List.mem_cons_self)
        have hne : ¬ n * 16384 + (16352 + l) = n * 16384 + (16352 + k) := by omega
        have hseen := hframe.seen _ hp hne
        unfold seen at hseen
        rw [hframe.ref hp hne, htgt] at hseen
        simp only [Option.map_some, Option.some.injEq, Prod.mk.injEq] at hseen
        exact hseen.2

/-- The task in slot `n` is one that runs a program: its page tables lie below its limits, and there is one. -/
structure UserTask (n : Nat) (t : Task) (mem : Mem) : Prop where
  slot : 1 ≤ n ∧ n < 64
  task : mem.task n = some t
  limits : t.codeLimit ≤ 0x4000000 ∧ t.dataLimit ≤ 0x4000000
  within : ∀ d, d / 16 = n → d % 16 * 0x400000 < t.dataLimit ∨ tableOf mem d = none
  running : ∃ d table, d / 16 = n ∧ tableOf mem d = some table

theorem UserTask.owned {n : Nat} {t : Task} {mem : Mem} {page : Nat → Option Nat} (h : UserTask n t mem₀)
    (hown : Owned lo own₀ mem₀ mem page) : UserTask n t mem := by
  have htable : tableOf mem = tableOf mem₀ := by
    funext d
    unfold tableOf
    rw [hown.dir]
  refine ⟨h.slot, by rw [hown.frame.same.task, h.task], h.limits, ?_, ?_⟩
  · rw [htable]
    exact h.within
  · rw [htable]
    exact h.running

theorem getFreePage_of_free {mem : Mem} {f : Nat} (hf : mapNr f < pagingPages) (hfree : mem.memMap (mapNr f) = 0) :
    (getFreePage mem).1 ≠ none := by
  unfold getFreePage
  cases hscan : scanFree mem.memMap pagingPages with
  | none => exact absurd hfree (scanFree_none hscan _ hf)
  | some nr => exact Option.some_ne_none _

/-- The two calls of `free_page_tables` empty the slot, and leave a page for a new page table. -/
theorem freeSpace {own : Nat → Nat} {n : Nat} {t : Task} {mem : Mem} (h : Inv lo own mem) (hlay : Layout mem)
    (ht : UserTask n t mem) :
    Post (freePageTables t.startCode t.codeLimit mem >>= freePageTables t.startCode t.dataLimit)
      (fun mem' => Inv lo own mem' ∧ Fewer mem mem' ∧ (∀ d, d / 16 = n → tableOf mem' d = none) ∧
        (getFreePage mem').1 ≠ none)
      (fun _ => False) := by
  rw [hlay n t ht.task]
  refine Post.bind (freePageTables_fewer h ht.slot ht.limits.1) ?_
  rintro mem₁ ⟨h₁, hfewer₁, -⟩
  refine (freePageTables_fewer h₁ ht.slot ht.limits.2).imp ?_
  rintro mem₂ ⟨h₂, hfewer₂, hnone⟩
  have hfewer := hfewer₁.trans hfewer₂
  have hempty : ∀ d, d / 16 = n → tableOf mem₂ d = none := by
    intro d hd
    rcases ht.within d hd with hlt | habs
    · exact hnone d (by omega) (by omega)
    · cases htable : tableOf mem₂ d with
      | none => rfl
      | some table =>
        rw [hfewer.dirs d table htable] at habs
        cases habs
  refine ⟨h₂, hfewer, hempty, ?_⟩
  obtain ⟨d, table, hd, htable⟩ := ht.running
  have hmain := table_main h htable
  have hlow := h.fixed.lo_le
  have hhigh := h.fixed.high_le
  refine getFreePage_of_free ?_ (free_of_table h h₂ hfewer htable (hempty d hd))
  unfold mapNr
  omega

theorem mapArgPages_spec {own : Nat → Nat} {n : Nat} {page : Nat → Option Nat} {mem : Mem} (hn : 1 ≤ n ∧ n < 64)
    (h : Inv lo own mem) (hempty : ∀ d, d / 16 = n → tableOf mem d = none)
    (htable : (getFreePage mem).1 ≠ none)
    (hown : ∀ k f, page k = some f → own f = 1)
    (hmain : ∀ k f, page k = some f → k < 32 ∧ lo ≤ f ∧ f < mem.highMemory)
    (hinj : ∀ k l f, page k = some f → page l = some f → k = l) :
    Mapping lo n page mem [] (mapArgPages (n * 0x4000000) page mem) := by
  unfold mapArgPages
  refine (foldl_invariant (I := fun todo mem' => (todo.Nodup ∧ ∀ k ∈ todo, k < 32) ∧ Mapping lo n page mem todo mem')
    ?_ _ mem ⟨⟨?_, ?_⟩, ?_⟩).2
  · rintro k todo mem' ⟨⟨hnodup, hlt⟩, hmap⟩
    obtain ⟨hnot, hnodup⟩ := List.nodup_cons.mp hnodup
    refine ⟨⟨hnodup, fun l hl => hlt l (List.mem_cons_of_mem k hl)⟩, ?_⟩
    exact hmap.step hn hmain hinj (hlt k List.mem_cons_self) hnot
  · exact List.nodup_reverse.mpr List.nodup_range
  · exact fun k hk => List.mem_range.mp (List.mem_reverse.mp hk)
  · refine ⟨⟨own, h, fun k _ f hf => hown k f hf⟩, fun j hj => ?_, fun _ _ _ => rfl, Same.refl mem, .inr htable⟩
    rw [entry_of_none (hempty _ (by omega)), if_neg]
    · rfl
    · rintro ⟨hlow, hnot⟩
      exact hnot (List.mem_reverse.mpr (List.mem_range.mpr (by omega)))

/-- The strings as the new program has them. -/
theorem Mapping.user {n : Nat} {t : Task} {s : Args} {L : List UInt8} {base mem : Mem} (hn : 1 ≤ n ∧ n < 64)
    (hlo : lowMem ≤ lo) (hlay : Layout base) (ht : base.task n = some t) (hlaid : Laid mem₀ L s)
    (hmain : ∀ k f, s.page k = some f → lo ≤ f) (hbytes : base.page = s.mem.page)
    (h : Mapping lo n s.page base [] mem) :
    UserMem lo n t mem ∧ Holds mem n (s.p.toNat + 0x3FE0000) L := by
  have htarget : ∀ j < 16384, (entry mem (n * 16384 + j)).target =
      if 16352 ≤ j then s.page (j - 16352) else none := by
    intro j hj
    rw [h.target j hj]
    simp
  obtain ⟨own, hinv, -⟩ := h.own
  refine ⟨⟨⟨own, hinv⟩, hlay.same h.same, hn, by rw [h.same.task, ht], ?_⟩, ?_⟩
  · intro p hp hslot f hf
    rw [← show n * 16384 + p % 16384 = p by omega, htarget _ (Nat.mod_lt _ (by decide))] at hf
    split at hf
    · exact Nat.le_trans hlo (hmain _ f hf)
    · cases hf
  · intro i hi
    have hroom := hlaid.room
    have htop : argTop < 32 * 4096 := by decide
    obtain ⟨f, hf, hbyte⟩ := hlaid.bytes i hi
    refine byteAt_eq_some.mpr ⟨f, ?_, ?_⟩
    · rw [show taskPage n (s.p.toNat + 0x3FE0000 + i) = n * 16384 + (16352 + (s.p.toNat + i) / 4096) by
        unfold taskPage
        omega, htarget _ (by omega), if_pos (Nat.le_add_right ..), Nat.add_sub_cancel_left, hf]
    · rw [show (s.p.toNat + 0x3FE0000 + i) % 4096 = (s.p.toNat + i) % 4096 by omega, h.bytes _ f hf, hbytes]
      exact hbyte

end Linux011.Exec
