import Linux011.Lib.Run
import Linux011.Mm.Counting
import Linux011.Mm.Fork

/-!
# The dirty bit as evidence

`try_to_share` takes a clear dirty bit to mean that a page still holds what was read from the
executable. `Clean` says so for every page of every task, and this module follows it through the life
of the tasks: faults, stores, forks, `execve`, `exit`. It survives all of them but one: `un_wp_page`
maps its copy with a clear dirty bit, so a copy of a page that has been stored to looks clean until
the next store. When that store follows at once, as it does when the processor retries the faulting
instruction, nothing is lost; `write_verify` copies pages with no store at all.
-/

namespace Linux011.Mm

open Linux011.Lib

inductive Action where
  | fault (n address : Nat)                  -- `do_no_page` for task `n`
  | protect (address : Nat)                  -- `do_wp_page`, the store still to come
  | verify (address : Nat)                   -- `write_verify`
  | store (address : Nat) (v : UInt8)        -- a user store, with its `do_wp_page`
  | kernelStore (address : Nat) (v : UInt8)
  | fork (cur nr : Nat)
  | unmap (n size : Nat)                     -- `free_page_tables`
  | exec (n : Nat) (t : Task)
  | exit (n : Nat)
  | take
  | give (page : Nat)
  | put (page address : Nat)
  | fill (page : Nat) (bytes : Nat → UInt8)  -- the kernel writes a page of its own
  | opens (iCount : Nat → Nat)

/-- The steps. `endOf x` is the `end_data` that the header of executable `x` gives; `execve` runs in a
task whose pages have all been freed. A handler that finds no memory kills its task and changes no
page; only for `do_no_page`, which may have cleared a page by then, is this a step of its own. -/
inductive Action.Step (file : ExeFile) (endOf : Nat → Nat) (σ : Sys) : Action → Sys → Prop
  | fault {n a : Nat} {current : Task} {s : Mem} (hn : 1 ≤ n ∧ n < 64)
      (ht : σ.mem.task n = some current) (ha : a / 0x4000000 = n)
      (habs : (walk σ.mem a).present = false)
      (hexec : doNoPage file a n current σ.mem = .ok s ∨
        doNoPage file a n current σ.mem = .error (.oom s)) :
      Action.Step file endOf σ (fault n a) ⟨s, σ.own⟩
  | protect {a : Nat} {s : Mem} (ha : a / 4096 ∈ userPages) (hpres : (walk σ.mem a).present = true)
      (hro : (walk σ.mem a).rw = false) (hexec : doWpPage a σ.mem = .ok s) :
      Action.Step file endOf σ (protect a) ⟨s, σ.own⟩
  | verify {a : Nat} {s : Mem} (ha : a / 4096 ∈ userPages) (hexec : writeVerify a σ.mem = .ok s) :
      Action.Step file endOf σ (verify a) ⟨s, σ.own⟩
  | store {a : Nat} {v : UInt8} {s : Mem} (ha : a / 4096 ∈ userPages)
      (hpres : (walk σ.mem a).present = true) (hexec : writablePage a σ.mem = .ok s) :
      Action.Step file endOf σ (store a v) ⟨s.store a v, σ.own⟩
  | kernelStore {a : Nat} {v : UInt8} (ha : a / 4096 ∈ userPages)
      (hpres : (walk σ.mem a).present = true) :
      Action.Step file endOf σ (kernelStore a v) ⟨σ.mem.store a v, σ.own⟩
  | fork {cur nr : Nat} {current : Task} {r : Option Nat × Mem} (hcur : 1 ≤ cur ∧ cur < 64)
      (hnr : 1 ≤ nr ∧ nr < 64) (ht : σ.mem.task cur = some current) (hfree : σ.mem.task nr = none)
      (hexec : copyProcess nr current σ.mem = .ok r) :
      Action.Step file endOf σ (fork cur nr)
        ⟨r.2, match r.1 with | some p => Function.update σ.own p 1 | none => σ.own⟩
  | unmap {n size : Nat} {s : Mem} (hn : 1 ≤ n ∧ n < 64) (hsize : size ≤ 0x4000000)
      (hexec : freePageTables (n * 0x4000000) size σ.mem = .ok s) :
      Action.Step file endOf σ (unmap n size) ⟨s, σ.own⟩
  | exec {n : Nat} {t : Task} (hempty : ∀ q ∈ userPages, q / 16384 = n → seen σ.mem q = none)
      (hstart : t.startCode = n * 0x4000000) (hend : t.endData ≤ t.dataLimit)
      (hlim : t.dataLimit ≤ 0x4000000) (hexe : ∀ x, t.executable = some x → t.endData = endOf x) :
      Action.Step file endOf σ (exec n t) ⟨σ.mem.setTask n (some t), σ.own⟩
  | exit {n : Nat} : Action.Step file endOf σ (exit n) ⟨σ.mem.setTask n none, σ.own⟩
  | take {f : Nat} {s : Mem} (hexec : getFreePage σ.mem = (some f, s)) :
      Action.Step file endOf σ take ⟨s, Function.update σ.own f 1⟩
  | give {f : Nat} {s : Mem} (ho : σ.own f = 1) (hexec : freePage f σ.mem = .ok s) :
      Action.Step file endOf σ (give f) ⟨s, Function.update σ.own f 0⟩
  | put {f a : Nat} {s : Mem} (ho : σ.own f = 1) (ha : a / 4096 ∈ userPages)
      (habs : (walk σ.mem a).present = false)
      (hbeyond : ∀ t, σ.mem.task (a / 0x4000000) = some t → t.executable = none ∨
        t.endData ≤ a / 4096 * 4096 - a / 0x4000000 * 0x4000000)
      (hexec : putPage f a σ.mem = (some f, s)) :
      Action.Step file endOf σ (put f a) ⟨s, Function.update σ.own f 0⟩
  | fill {f : Nat} {bytes : Nat → UInt8} (ho : σ.own f = 1) :
      Action.Step file endOf σ (fill f bytes) ⟨σ.mem.setPage f bytes, σ.own⟩
  | opens {iCount : Nat → Nat} : Action.Step file endOf σ (opens iCount) ⟨{ σ.mem with iCount }, σ.own⟩

/-- `un_wp_page` at this address copies a page that has been stored to, and the copy looks clean. -/
def LosesDirty (s : Mem) (a : Nat) : Prop :=
  (walk s a).present = true ∧ (walk s a).rw = false ∧ (walk s a).dirty = true ∧ ¬ sole s (walk s a)

/-- A handler does not lose a dirty bit, and the kernel stores into pages of one task only. -/
def Action.Safe (σ : Sys) : Action → Prop
  | protect a => ¬ LosesDirty σ.mem a
  | verify a => ¬ LosesDirty σ.mem a
  | kernelStore a _ => Exclusive σ.mem (a / 4096)
  | _ => True

/-- Every clean page of a task, below the end of its data, is the page that `do_no_page` would read. -/
structure Clean (file : ExeFile) (endOf : Nat → Nat) (lo : Nat) (σ : Sys) : Prop where
  sys : SysInv lo σ
  task : ∀ n t, σ.mem.task n = some t → t.endData ≤ t.dataLimit ∧ t.dataLimit ≤ 0x4000000 ∧
    ∀ x, t.executable = some x → t.endData = endOf x
  clean : ∀ n t x, 1 ≤ n ∧ n < 64 → σ.mem.task n = some t → t.executable = some x →
    ∀ o, o % 4096 = 0 → o < t.endData → ∀ bytes,
      seen σ.mem (taskPage n o) = some (false, bytes) → bytes = filePage file x t.endData o

section cleanness

variable {file : ExeFile} {endOf : Nat → Nat} {lo hi : Nat} {page : Nat → Nat → UInt8} {σ σ' : Sys}

/-- What is left to show of a step that does not touch the task table: a page that is new or has
changed is dirty or comes from the file. -/
theorem Clean.keep (h : Clean file endOf lo σ) (hsys : SysInv lo σ')
    (htask : σ'.mem.task = σ.mem.task)
    (hseen : ∀ n t x, 1 ≤ n ∧ n < 64 → σ.mem.task n = some t → t.executable = some x →
      ∀ o, o % 4096 = 0 → o < t.endData → o < 0x4000000 → ∀ bytes,
        seen σ'.mem (taskPage n o) = some (false, bytes) →
        seen σ.mem (taskPage n o) = some (false, bytes) ∨ bytes = filePage file x t.endData o) :
    Clean file endOf lo σ' := by
  refine ⟨hsys, ?_, ?_⟩
  · rw [htask]
    exact h.task
  · intro n t x hn ht hx o ho hlt bytes hb
    rw [htask] at ht
    obtain ⟨h1, h2, -⟩ := h.task n t ht
    rcases hseen n t x hn ht hx o ho hlt (by omega) bytes hb with hold | hfile
    · exact h.clean n t x hn ht hx o ho hlt bytes hold
    · exact hfile

/-- A step confined to one page leaves that page to look at. -/
theorem Clean.keep_frame (h : Clean file endOf lo σ) {s : Mem} {own : Nat → Nat} {p : Nat}
    (hsys : SysInv lo ⟨s, own⟩) (hframe : Frame (· = p) σ.mem s)
    (hpage : ∀ n t x, 1 ≤ n ∧ n < 64 → σ.mem.task n = some t → t.executable = some x →
      ∀ o, o % 4096 = 0 → o < t.endData → taskPage n o = p → ∀ bytes,
        seen s p = some (false, bytes) →
        seen σ.mem p = some (false, bytes) ∨ bytes = filePage file x t.endData o) :
    Clean file endOf lo ⟨s, own⟩ := by
  refine h.keep hsys hframe.same.task ?_
  intro n t x hn ht hx o ho hlt hlt' bytes hb
  rcases eq_or_ne (taskPage n o) p with heq | hne
  · rw [heq] at hb ⊢
    exact hpage n t x hn ht hx o ho hlt heq bytes hb
  · left
    rw [← hframe.seen _ (taskPage_mem hn hlt') hne]
    exact hb

/-- A step that no page shows. -/
theorem Clean.keep_all (h : Clean file endOf lo σ) {s : Mem} {own : Nat → Nat}
    (hsys : SysInv lo ⟨s, own⟩) (hframe : Frame (fun _ => False) σ.mem s) :
    Clean file endOf lo ⟨s, own⟩ := by
  refine h.keep hsys hframe.same.task ?_
  intro n t x hn ht hx o _ _ hlt' bytes hb
  left
  rw [← hframe.seen _ (taskPage_mem hn hlt') not_false]
  exact hb

/-- The pages that `un_wp_page` leaves are as clean as they were, unless it loses a dirty bit. -/
theorem seen_unshared {s s' : Mem} {p : Nat} (hpres : (entry s p).present = true)
    (hun : Unshared s s' p) (hsafe : ¬ ((entry s p).dirty = true ∧ ¬ sole s (entry s p)))
    {bytes : Nat → UInt8} (hb : seen s' p = some (false, bytes)) : seen s p = some (false, bytes) := by
  have hbytes := hun.bytes
  unfold seen at hb ⊢
  rw [Pte.target_of_present hpres]
  rcases hun.ent with ⟨-, he⟩ | ⟨hshared, f, -, -, he⟩
  · rw [he] at hb hbytes
    rw [Pte.target_writable, Pte.target_of_present hpres] at hb
    change s'.page (entry s p).frame = _ at hbytes
    simp only [Option.map_some, hbytes] at hb ⊢
    exact hb
  · have hclean : (entry s p).dirty = false := by
      cases hd : (entry s p).dirty with
      | false => rfl
      | true => exact absurd ⟨hd, hshared⟩ hsafe
    rw [he] at hb hbytes
    rw [Pte.target_user] at hb
    simp only [Option.map_some, Option.some.injEq, Prod.mk.injEq] at hb ⊢
    exact ⟨hclean, by rw [← hbytes]; exact hb.2⟩

theorem filePage_page {o n : Nat} (ho : o % 4096 = 0) {a : Nat} (h : taskPage n o = a / 4096) :
    a / 4096 * 4096 - n * 0x4000000 = o := by
  unfold taskPage at h
  omega

/-- A page that `do_no_page` has brought in is clean with the right contents, or lies beyond the data. -/
theorem clean_loaded (h : Clean file endOf lo σ) {n : Nat} {t : Task} {x o p : Nat} {s : Mem} (ht : σ.mem.task n = some t) (hx : t.executable = some x)
    (ho : o % 4096 = 0) (hlt : o < t.endData)
    (hload : Loaded file n t o p σ.mem s) {bytes : Nat → UInt8} (hb : seen s p = some (false, bytes)) :
    bytes = filePage file x t.endData o := by
  cases hload with
  | empty beyond =>
    rcases beyond with hexe | hend
    · rw [hx] at hexe
      cases hexe
    · omega
  | @shared m _ _ slot donor copied =>
    obtain ⟨-, ⟨t', ht', hexe⟩, hshare⟩ := donor
    have hdonor := h.clean m t' x slot ht' (hexe.trans hx) o ho
    have hend : t'.endData = t.endData := by
      rw [(h.task m t' ht').2.2 x (hexe.trans hx), (h.task n t ht).2.2 x hx]
    rw [← hend]
    refine hdonor (by omega) bytes ?_
    rw [← copied.seen]
    exact hb
  | read exe _ _ fresh =>
    obtain ⟨f, -, -, he, hf⟩ := fresh
    rw [hx] at exe
    cases exe
    unfold seen at hb
    rw [he, Pte.target_user] at hb
    simp only [Option.map_some, Option.some.injEq, Prod.mk.injEq] at hb
    rw [← hb.2, hf]

theorem Clean.setTask (h : Clean file endOf lo σ) {n : Nat} {r : Option Task}
    (hstart : ∀ t, r = some t → t.startCode = n * 0x4000000)
    (hok : ∀ t, r = some t → t.endData ≤ t.dataLimit ∧ t.dataLimit ≤ 0x4000000 ∧
      ∀ x, t.executable = some x → t.endData = endOf x)
    (hempty : r ≠ none → ∀ q ∈ userPages, q / 16384 = n → seen σ.mem q = none) :
    Clean file endOf lo ⟨σ.mem.setTask n r, σ.own⟩ := by
  have halike : Alike σ.mem (σ.mem.setTask n r) := ⟨rfl, rfl, rfl, rfl, rfl⟩
  have htask : ∀ m t, (σ.mem.setTask n r).task m = some t →
      (m = n ∧ r = some t) ∨ (m ≠ n ∧ σ.mem.task m = some t) := by
    intro m t ht
    change Function.update σ.mem.task n r m = some t at ht
    rcases eq_or_ne m n with rfl | hne
    · rw [Function.update_self] at ht
      exact Or.inl ⟨rfl, ht⟩
    · rw [Function.update_of_ne hne] at ht
      exact Or.inr ⟨hne, ht⟩
  refine ⟨⟨halike.inv h.sys.inv, ?_, h.sys.own_main⟩, ?_, ?_⟩
  · intro m t ht
    rcases htask m t ht with ⟨rfl, hr⟩ | ⟨-, hold⟩
    · exact hstart t hr
    · exact h.sys.layout m t hold
  · intro m t ht
    rcases htask m t ht with ⟨rfl, hr⟩ | ⟨-, hold⟩
    · exact hok t hr
    · exact h.task m t hold
  · intro m t x hm ht hx o ho hlt bytes hb
    rw [halike.seen] at hb
    rcases htask m t ht with ⟨rfl, hr⟩ | ⟨-, hold⟩
    · obtain ⟨h1, h2, -⟩ := hok t hr
      have hlt' : o < 0x4000000 := by omega
      rw [hempty (by rw [hr]; exact Option.some_ne_none t) _ (taskPage_mem hm hlt')
        (by unfold taskPage; omega)] at hb
      cases hb
    · exact h.clean m t x hm hold hx o ho hlt bytes hb

theorem Clean.boot (h1 : lowMem ≤ lo) (h2 : hi ≤ lowMem + pagingPages) :
    Clean file endOf lo (boot lo hi page) := by
  have htask : ∀ n t, (Mm.boot lo hi page).mem.task n = some t → t = initTask := by
    intro n t ht
    change (if n = 0 then some initTask else none) = some t at ht
    split at ht
    · exact (Option.some.inj ht).symm
    · cases ht
  refine ⟨boot_inv h1 h2, ?_, ?_⟩
  · intro n t ht
    rw [htask n t ht]
    exact ⟨by decide, by decide, by rintro x ⟨⟩⟩
  · intro n t x _ ht hx
    rw [htask n t ht] at hx
    cases hx

/-- The pages of a child are as clean as its parent's. -/
theorem Clean.forked (h : Clean file endOf lo σ) {cur nr p : Nat} {current : Task} {s : Mem}
    (hcur : 1 ≤ cur ∧ cur < 64) (hne : cur ≠ nr) (ht : σ.mem.task cur = some current)
    (hf : Forked lo σ.own σ.mem cur nr current p s) :
    Clean file endOf lo ⟨s, Function.update σ.own p 1⟩ := by
  obtain ⟨hend, hlim, hexe⟩ := h.task cur current ht
  refine ⟨hf.sysInv h.sys, ?_, ?_⟩
  · intro n t htask
    change s.task n = some t at htask
    rw [hf.task] at htask
    rcases eq_or_ne n nr with rfl | hnn
    · rw [Function.update_self] at htask
      cases htask
      exact ⟨hend, hlim, hexe⟩
    · rw [Function.update_of_ne hnn] at htask
      exact h.task n t htask
  · intro n t x hn htask hx o ho hlt bytes hb
    change s.task n = some t at htask
    change seen s _ = _ at hb
    rw [hf.task] at htask
    rcases eq_or_ne n nr with rfl | hnn
    · rw [Function.update_self] at htask
      cases htask
      have hlt' : o < current.endData := hlt
      rw [(hf.copied o (by omega)).seen] at hb
      exact h.clean cur current x hcur ht hx o ho hlt' bytes hb
    · rw [Function.update_of_ne hnn] at htask
      have hlt' : o < 0x4000000 := by
        obtain ⟨h1, h2, -⟩ := h.task n t htask
        omega
      rw [hf.seen _ (taskPage_mem hn hlt') (by unfold taskPage; omega)] at hb
      exact h.clean n t x hn htask hx o ho hlt bytes hb

/-- A fork that has failed leaves the pages of the other tasks as they were. -/
theorem Clean.notForked (h : Clean file endOf lo σ) {nr : Nat} {s : Mem} (hfree : σ.mem.task nr = none)
    (hnot : NotForked lo σ.own σ.mem nr s) : Clean file endOf lo ⟨s, σ.own⟩ := by
  have hsys : SysInv lo ⟨s, σ.own⟩ := ⟨hnot.inv, h.sys.layout.same hnot.same, fun f hfo => by
    show lo ≤ f ∧ f < s.highMemory
    rw [hnot.same.high]
    exact h.sys.own_main f hfo⟩
  refine h.keep hsys hnot.same.task ?_
  intro n t x hn htask hx o _ _ hlt' bytes hb
  left
  have hnn : n ≠ nr := by
    rintro rfl
    rw [hfree] at htask
    cases htask
  rw [← hnot.seen _ (taskPage_mem hn hlt') (by unfold taskPage; omega)]
  exact hb

/-- A fault brings in one page, or finds no memory. -/
theorem Clean.faulted (h : Clean file endOf lo σ) {n a : Nat} {current : Task} {s : Mem} (hn : 1 ≤ n ∧ n < 64)
    (ht : σ.mem.task n = some current) (ha : a / 0x4000000 = n) (habs : (walk σ.mem a).present = false)
    (hexec : doNoPage file a n current σ.mem = .ok s ∨ doNoPage file a n current σ.mem = .error (.oom s)) :
    Clean file endOf lo ⟨s, σ.own⟩ := by
  have hp := page_of_slot ha hn
  rw [walk_eq hp] at habs
  have hspec := doNoPage_spec file h.sys.inv h.sys.layout hn (h.sys.layout _ _ ht) ha
    (Pte.target_of_absent habs)
  rcases hexec with hok | hoom
  · obtain ⟨h', hframe, hload⟩ := hspec.of_ok _ hok
    refine h.keep_frame (h.sys.step h' hframe) hframe ?_
    intro m t x hm ht' hx o ho hlt heq bytes hb
    right
    -- the page that has been brought in is one of the task that faulted
    obtain rfl : m = n := by
      obtain ⟨h1, h2, -⟩ := h.task m t ht'
      unfold taskPage at heq
      omega
    rw [ht] at ht'
    cases ht'
    rw [filePage_page ho heq] at hload
    exact clean_loaded h ht hx ho hlt hload hb
  · obtain ⟨s', heq, h', hframe⟩ := hspec.of_error _ hoom
    cases heq
    exact h.keep_all (h.sys.step h' hframe) hframe

/-- `free_page_tables` leaves no page in its range, and the others as they were. -/
theorem Clean.unmapped (h : Clean file endOf lo σ) {n size : Nat} {s : Mem} (hn : 1 ≤ n ∧ n < 64)
    (hsize : size ≤ 0x4000000) (hexec : freePageTables (n * 0x4000000) size σ.mem = .ok s) :
    Clean file endOf lo ⟨s, σ.own⟩ := by
  obtain ⟨h', hframe, hnone⟩ := (freePageTables_spec h.sys.inv hn hsize).of_ok _ hexec
  refine h.keep (h.sys.step h' hframe) hframe.same.task ?_
  intro m t x hm ht hx o _ _ hlt' bytes hb
  left
  rcases Decidable.em (16 * n ≤ taskPage m o / 1024 ∧
    taskPage m o / 1024 < 16 * n + (size + 0x3fffff) / 0x400000) with hin | hout
  · have hz : seen s (taskPage m o) = none :=
      seen_of_zero (entry_of_none (hnone _ hin.1 hin.2))
    rw [hz] at hb
    cases hb
  · rw [← hframe.seen _ (taskPage_mem hm hlt') hout]
    exact hb

/-- `put_page` maps a page beyond the data of the executable. -/
theorem Clean.mapped (h : Clean file endOf lo σ) {f a : Nat} {s : Mem} (ho : σ.own f = 1)
    (ha : a / 4096 ∈ userPages) (habs : (walk σ.mem a).present = false)
    (hbeyond : ∀ t, σ.mem.task (a / 0x4000000) = some t → t.executable = none ∨
      t.endData ≤ a / 4096 * 4096 - a / 0x4000000 * 0x4000000)
    (hexec : putPage f a σ.mem = (some f, s)) : Clean file endOf lo ⟨s, Function.update σ.own f 0⟩ := by
  rw [walk_eq ha] at habs
  rcases putPage_spec h.sys.inv (h.sys.own_main f ho) ho ha (Pte.target_of_absent habs) with
    hput | ⟨s', hput, h', hframe, -⟩
  · rw [hput] at hexec
    cases hexec
  · rw [hput] at hexec
    cases hexec
    refine h.keep_frame (h.sys.step_own h' hframe (by simp)) hframe ?_
    intro n t x hn ht hx o ho' hlt heq bytes _
    have hslot : a / 0x4000000 = n := by
      obtain ⟨h1, h2, -⟩ := h.task n t ht
      unfold taskPage at heq
      omega
    rw [hslot] at hbeyond
    rcases hbeyond t ht with hexe | hend
    · rw [hx] at hexe
      cases hexe
    · rw [filePage_page ho' heq] at hend
      omega

/-- No page of a task shows what the kernel writes to a page of its own. -/
theorem frame_fill (h : SysInv lo σ) {f : Nat} (ho : σ.own f = 1) (bytes : Nat → UInt8) :
    Frame (fun _ => False) σ.mem (σ.mem.setPage f bytes) := by
  have hun : ∀ q ∈ userPages, (entry σ.mem q).target ≠ some f := fun q hq =>
    h.inv.good.unmapped_of_own (h.own_main f ho).1 (h.own_main f ho).2 ho hq
  refine Frame.of_entry ⟨rfl, rfl, rfl⟩ (fun _ _ _ => rfl) ?_
  intro q hq _ f' hf'
  have hne : f' ≠ f := fun heq => hun q hq (heq ▸ hf')
  exact Function.update_of_ne hne _ _

/-- Every step keeps clean pages faithful, as long as no handler loses a dirty bit and the kernel
stores into unshared pages only. -/
theorem Action.Step.clean {ev : Action} (h : Clean file endOf lo σ) (hsafe : ev.Safe σ)
    (hstep : Action.Step file endOf σ ev σ') : Clean file endOf lo σ' := by
  cases hstep with
  | fault hn ht ha habs hexec => exact h.faulted hn ht ha habs hexec
  | @protect a s ha hpres hro hexec =>
    have hpres' : (entry σ.mem (a / 4096)).present = true := by rwa [← walk_eq ha]
    obtain ⟨h', hframe, hun⟩ := (doWpPage_spec h.sys.inv ha hpres').of_ok _ hexec
    refine h.keep_frame (h.sys.step h' hframe) hframe ?_
    intro n t x _ _ _ o _ _ _ bytes hb
    left
    refine seen_unshared hpres' hun (fun hlost => hsafe ⟨hpres, hro, ?_⟩) hb
    rw [walk_eq ha]
    exact hlost
  | @verify a s ha hexec =>
    obtain ⟨h', hframe, hcase⟩ := (writeVerify_spec h.sys.inv ha).of_ok _ hexec
    refine h.keep_frame (h.sys.step h' hframe) hframe ?_
    intro n t x _ _ _ o _ _ _ bytes hb
    left
    rcases hcase with ⟨rfl, -⟩ | ⟨hpres, hro, hun⟩
    · exact hb
    · refine seen_unshared hpres hun (fun hlost => hsafe ?_) hb
      unfold LosesDirty
      rw [walk_eq ha]
      exact ⟨hpres, hro, hlost⟩
  | @store a v s ha hpres hexec =>
    rw [walk_eq ha] at hpres
    obtain ⟨h₁, hframe₁, hpres₁, hrw₁, -⟩ := (writablePage_spec h.sys.inv ha hpres).of_ok _ hexec
    obtain ⟨h₂, -, hframe₂⟩ := store_spec (v := v) h₁ ha hpres₁
    have hframe := hframe₁.trans (hframe₂ (h₁.writable ha hpres₁ hrw₁).2)
    refine h.keep_frame (h.sys.step h₂ hframe) hframe ?_
    intro n t x _ _ _ o _ _ _ bytes hb
    rw [seen_store h₁ ha hpres₁] at hb
    cases hb
  | @kernelStore a v ha hpres =>
    rw [walk_eq ha] at hpres
    obtain ⟨h₁, -, hframe⟩ := store_spec (v := v) h.sys.inv ha hpres
    refine h.keep_frame (h.sys.step h₁ (hframe hsafe)) (hframe hsafe) ?_
    intro n t x _ _ _ o _ _ _ bytes hb
    rw [seen_store h.sys.inv ha hpres] at hb
    cases hb
  | @fork cur nr current r hcur hnr ht hfree hexec =>
    have hne : cur ≠ nr := by
      rintro rfl
      rw [hfree] at ht
      cases ht
    have hspec := copyProcess_spec h.sys.inv hnr hcur hne (h.sys.layout _ _ ht) (h.task cur current ht).2.1 hfree
    obtain ⟨res, s⟩ := r
    rcases hspec.of_ok _ hexec with ⟨p, hp, hf⟩ | ⟨hp, hnot⟩
    · cases hp
      exact h.forked hcur hne ht hf
    · cases hp
      exact h.notForked hfree hnot
  | unmap hn hsize hexec => exact h.unmapped hn hsize hexec
  | @exec n t hempty hstart hend hlim hexe =>
    refine h.setTask ?_ ?_ fun _ => hempty
    · rintro t' ⟨⟩
      exact hstart
    · rintro t' ⟨⟩
      exact ⟨hend, hlim, hexe⟩
  | exit => exact h.setTask (by rintro t ⟨⟩) (by rintro t ⟨⟩) fun hne => absurd rfl hne
  | @take f s hexec =>
    rcases getFreePage_spec h.sys.inv with hget | ⟨f', s', hget, g⟩
    · rw [hget] at hexec
      cases hexec
    · rw [hget] at hexec
      cases hexec
      exact h.keep_all (h.sys.step_own g.inv (g.frame fun _ => False) fun _ => g.main) (g.frame _)
  | @give f s ho hexec =>
    obtain ⟨h', hframe, -⟩ := (freePage_owned h.sys.inv (h.sys.own_main f ho) ho).of_ok _ hexec
    exact h.keep_all (h.sys.step_own h' hframe (by simp)) hframe
  | put ho ha habs hbeyond hexec => exact h.mapped ho ha habs hbeyond hexec
  | @fill f bytes ho =>
    have hframe := frame_fill h.sys ho bytes
    exact h.keep_all (h.sys.step ⟨h.sys.inv.good, h.sys.inv.fixed.setPage _⟩ hframe) hframe
  | @opens iCount =>
    have halike : Alike σ.mem { σ.mem with iCount } := ⟨rfl, rfl, rfl, rfl, rfl⟩
    refine ⟨⟨halike.inv h.sys.inv, h.sys.layout, h.sys.own_main⟩, h.task, ?_⟩
    intro n t x hn ht hx o ho hlt bytes hb
    rw [halike.seen] at hb
    exact h.clean n t x hn ht hx o ho hlt bytes hb

/-- A step that meets the condition. -/
def Action.SafeStep (file : ExeFile) (endOf : Nat → Nat) (σ : Sys) (ev : Action) (σ' : Sys) : Prop :=
  ev.Safe σ ∧ Action.Step file endOf σ ev σ'

end cleanness

/-! ## A run that loses a dirty bit -/

namespace LostStore

/-- An executable of one page, full of zeroes. -/
def file : ExeFile := fun _ _ => some fun _ => 0

def task (n : Nat) : Task := ⟨n * 0x4000000, 4096, some 0, 0x4000000, 0x4000000⟩

def ok (d : Mem) (r : Except Stop Mem) : Mem := r.toOption.getD d

/-- Task 1 starts the executable, faults its page in and stores a byte. -/
def started : Mem := (boot 1024 4096 fun _ _ => 0).mem.setTask 1 (some (task 1))
def loaded : Mem := ok started (doNoPage file 0x4000000 1 (task 1) started)
def stored : Mem := loaded.store 0x4000000 7

/-- Task 1 forks; the page is now shared and write-protected, and dirty in both tasks. -/
def child : Mem := (getFreePage stored).2.setTask 2 (some (task 2))
def table : Mem := (getFreePage child).2.setDir 32 (Pte.user 4092)
def copied : Mem := copyEntry 4094 4092 table 0
def forked : Mem := copied.setICount 0 (copied.iCount 0 + 1)

/-- `write_verify` copies the page for task 1; task 3 starts the same executable. -/
def verified : Mem := ok forked (writeVerify 0x4000000 forked)
def second : Mem := verified.setTask 3 (some (task 3))

theorem ok_eq {d : Mem} {r : Except Stop Mem} (h : r.toOption.isSome = true) : r = .ok (ok d r) := by
  cases r with
  | ok s => rfl
  | error e => cases h

/-- What the calls of the run find in the states in which they begin. -/
theorem run_values : (walk started 0x4000000).present = false ∧
    (doNoPage file 0x4000000 1 (task 1) started).toOption.isSome = true ∧
    (walk loaded 0x4000000).present = true ∧ (walk loaded 0x4000000).rw = true ∧
    (getFreePage stored).1 = some 4093 ∧ (getFreePage child).1 = some 4092 ∧
    (child.pgDir 32).present = false ∧ (child.pgDir 16).present = true ∧ (table.pgDir 16).frame = 4094 ∧
    (∀ d < 15, (copied.pgDir (17 + d)).present = false ∧ (copied.pgDir (33 + d)).present = false) ∧
    (writeVerify 0x4000000 forked).toOption.isSome = true ∧
    (∀ d < 64, 48 ≤ d → (verified.pgDir d).present = false) := by
  decide +kernel

theorem load_ok : doNoPage file 0x4000000 1 (task 1) started = .ok loaded := ok_eq run_values.2.1

theorem forks : copyProcess 2 (task 1) stored = .ok (some 4093, forked) := by
  obtain ⟨-, -, -, -, hstored, hchild, hfree, hold, hframe, hrest, -⟩ := run_values
  have habs : ∀ i, 1 ≤ i → (table.pageTable 4094 i).present = false := by
    intro i hi
    obtain ⟨j, rfl⟩ := Nat.exists_eq_add_of_le' hi
    rfl
  exact copyProcess_copied hstored (copyMem_single rfl (by decide) rfl (by decide)
    (copyDirs_single hchild rfl hfree hold hframe (by decide) habs hrest))

theorem start : Action.Step file (fun _ => 4096) (boot 1024 4096 fun _ _ => 0)
    (Action.exec 1 (task 1)) ⟨started, fun _ => 0⟩ :=
  Action.Step.exec (fun q _ _ => seen_of_zero (entry_boot q)) rfl (by decide) (by decide)
    fun _ _ => rfl

theorem load : Action.Step file (fun _ => 4096) ⟨started, fun _ => 0⟩ (Action.fault 1 0x4000000)
    ⟨loaded, fun _ => 0⟩ :=
  Action.Step.fault (by decide) rfl (by decide) run_values.1 (Or.inl load_ok)

/-- Task 3 can start in any state in which it has no page table. -/
theorem startThird (s : Mem) (own : Nat → Nat)
    (h : ∀ d < 64, 48 ≤ d → (s.pgDir d).present = false) :
    Action.Step file (fun _ => 4096) ⟨s, own⟩ (Action.exec 3 (task 3))
      ⟨s.setTask 3 (some (task 3)), own⟩ := by
  refine Action.Step.exec ?_ rfl (by decide) (by decide) fun _ _ => rfl
  intro q hq hn
  apply seen_of_zero
  apply entry_of_none
  rw [tableOf_eq_none (dir_mem hq)]
  exact h _ (by omega) (by omega)

/-- Every step of the run is one the code takes. -/
theorem run : Run (Action.Step file fun _ => 4096) (boot 1024 4096 fun _ _ => 0)
    [Action.exec 1 (task 1), Action.fault 1 0x4000000, Action.store 0x4000000 7, Action.fork 1 2,
      Action.verify 0x4000000, Action.exec 3 (task 3)]
    ⟨second, Function.update (fun _ => 0) 4093 1⟩ := by
  obtain ⟨-, -, hpres, hrw, -, -, -, -, -, -, hcopy, hfree⟩ := run_values
  have hstore : Action.Step file (fun _ => 4096) ⟨loaded, fun _ => 0⟩ (Action.store 0x4000000 7)
      ⟨stored, fun _ => 0⟩ := by
    refine Action.Step.store (s := loaded) (by simp) hpres ?_
    rw [writablePage, if_pos hrw]
  have hfork : Action.Step file (fun _ => 4096) ⟨stored, fun _ => 0⟩ (Action.fork 1 2)
      ⟨forked, Function.update (fun _ => 0) 4093 1⟩ :=
    Action.Step.fork (r := (some 4093, forked)) (by decide) (by decide) rfl rfl forks
  have hverify : Action.Step file (fun _ => 4096) ⟨forked, Function.update (fun _ => 0) 4093 1⟩
      (Action.verify 0x4000000) ⟨verified, Function.update (fun _ => 0) 4093 1⟩ :=
    Action.Step.verify (by simp) (ok_eq hcopy)
  have hthird := startThird verified (Function.update (fun _ => 0) 4093 1) hfree
  exact (((((Run.nil.snoc start).snoc load).snoc hstore).snoc hfork).snoc hverify).snoc hthird

end LostStore

end Linux011.Mm
