import Linux011.Mm.Pages

/-!
# Demand loading and sharing

`do_no_page` and what it calls. The tasks are laid out as `copy_mem` lays them out: task `n` starts
at `n * 64 MB` (`Layout`), so that the same offset of two tasks lies in the same place of their page
tables.
-/

namespace Linux011.Mm

open Linux011.Lib

variable {lo : Nat} {own : Nat → Nat} {s : Mem} {a : Nat}

/-- `copy_mem`: every task has its own 64 MB of linear space. -/
def Layout (s : Mem) : Prop :=
  ∀ n t, s.task n = some t → t.startCode = n * 0x4000000

/-- `try_to_share` finds the page at `p` fit for sharing: present, clean, in main memory. -/
def Shareable (s : Mem) (p : Nat) : Prop :=
  (entry s p).present = true ∧ (entry s p).dirty = false ∧ lowMem ≤ (entry s p).frame ∧
    (entry s p).frame < s.highMemory

instance (s : Mem) (p : Nat) : Decidable (Shareable s p) := inferInstanceAs (Decidable (_ ∧ _))

/-- The linear page at an offset into task `n`. -/
def taskPage (n address : Nat) : Nat := n * 16384 + address / 4096

theorem address_page (n o : Nat) : (n * 0x4000000 + o) / 4096 = taskPage n o := by
  unfold taskPage
  omega

theorem taskPage_mem {n : Nat} (hn : 1 ≤ n ∧ n < 64) (ha : a < 0x4000000) :
    taskPage n a ∈ userPages := by
  rw [mem_userPages]
  unfold taskPage
  omega

theorem taskPage_dir {n : Nat} (hn : 1 ≤ n ∧ n < 64) (ha : a < 0x4000000) :
    dirIndex a + dirIndex (n * 0x4000000) = taskPage n a / 1024 := by
  unfold dirIndex taskPage
  omega

theorem taskPage_table {n : Nat} : tableIndex a = taskPage n a % 1024 := by
  unfold tableIndex taskPage
  omega

theorem shareTable_spec (h : Inv lo own s) {d : Nat} (hd : d ∈ userDirs) :
    Post (shareTable d s)
      (fun r => Inv lo own r.2 ∧ Frame (fun _ => False) s r.2 ∧ tableOf r.2 d = some r.1 ∧
        (∀ d', d' ≠ d → tableOf r.2 d' = tableOf s d') ∧ entry r.2 = entry s)
      (fun e => e = .oom s) := by
  cases hdir : (s.pgDir d).present with
  | true =>
    simp only [shareTable, hdir, if_true]
    exact Post.ret ⟨h, Frame.refl _ s, tableOf_eq_some.mpr ⟨hd, hdir, rfl⟩, fun _ _ => rfl, rfl⟩
  | false =>
    rcases getFreePage_spec h with hget | ⟨f, s₁, hget, g⟩
    · simp only [shareTable, hdir, hget]
      exact Post.stop rfl
    · obtain ⟨h₁, ht, hother, hframe, hent, -⟩ := g.newTable hd hdir
      simp only [shareTable, hdir, hget]
      exact Post.ret ⟨h₁, hframe, ht, hother, hent⟩

/-- What `try_to_share` does to the entries `p` (of the other task) and `q` (of the current one): with
`q` absent it fails, with nothing changed, exactly when `p` is unfit for sharing. -/
def SharePost (lo : Nat) (own : Nat → Nat) (s : Mem) (p q : Nat) (r : Bool × Mem) : Prop :=
  (r = (false, s) ∧ ¬ Shareable s p) ∨
    (r.1 = true ∧ Shareable s p ∧ Inv lo own r.2 ∧ Frame (· = q) s r.2 ∧ Copied s r.2 p q)

theorem tryToShare_slots (h : Inv lo own s) {p current : Task} {dF dT i : Nat}
    (hF : dirIndex a + dirIndex p.startCode = dF) (hT : dirIndex a + dirIndex current.startCode = dT)
    (hi : tableIndex a = i) (hdF : dF ∈ userDirs) (hdT : dT ∈ userDirs) (hne : dF ≠ dT)
    (hoff : dF % 16 = dT % 16) (habs : (entry s (dT * 1024 + i)).target = none) :
    Post (tryToShare a p current s) (SharePost lo own s (dF * 1024 + i) (dT * 1024 + i))
      (fun e => e = .oom s) := by
  have hi' : i < 1024 := hi ▸ Nat.mod_lt _ (by decide)
  unfold tryToShare
  simp only [hF, hT, hi]
  cases hdir : (s.pgDir dF).present with
  | false =>
    -- no page table: nothing is mapped there
    simp only [Bool.false_eq_true, not_false_eq_true, if_true]
    refine Post.ret (Or.inl ⟨rfl, ?_⟩)
    rintro ⟨hpres, -⟩
    have hnone : tableOf s ((dF * 1024 + i) / 1024) = none := by
      rw [show (dF * 1024 + i) / 1024 = dF by omega, tableOf_eq_none hdF]
      exact hdir
    rw [entry_of_none hnone] at hpres
    cases hpres
  | true =>
    have htF : tableOf s dF = some (s.pgDir dF).frame := tableOf_eq_some.mpr ⟨hdF, hdir, rfl⟩
    have hent : entry s (dF * 1024 + i) = s.pageTable (s.pgDir dF).frame i := entry_page htF hi'
    simp only [not_true_eq_false, if_false]
    generalize (s.pgDir dF).frame = tF at htF hent ⊢
    rw [← hent]
    split
    · next hclean =>
      refine Post.ret (Or.inl ⟨rfl, ?_⟩)
      rintro ⟨hpres, hdirty, -⟩
      exact hclean ⟨hpres, by simp [hdirty]⟩
    · next hclean =>
      split
      · next hrange =>
        refine Post.ret (Or.inl ⟨rfl, ?_⟩)
        rintro ⟨-, -, hlow, hhigh⟩
        omega
      · next hrange =>
        obtain ⟨hpres, hdirty⟩ := not_not.mp hclean
        have hshare : Shareable s (dF * 1024 + i) := ⟨hpres, by simpa using hdirty, by omega, by omega⟩
        refine Post.bind (shareTable_spec h hdT) ?_
        rintro ⟨tT, s₁⟩ ⟨h₁, hframe, htT, hother, hent₁⟩
        simp only at h₁ hframe htT hother hent₁ ⊢
        have htF₁ : tableOf s₁ dF = some tF := (hother dF hne).trans htF
        have he₁ : s₁.pageTable tF i = entry s (dF * 1024 + i) := by
          rw [← entry_page htF₁ hi', hent₁]
        have habs₁ : (entry s₁ (dT * 1024 + i)).target = none := by rw [hent₁, habs]
        have hnot : ¬ (s₁.pageTable tT i).present = true := by
          intro hp
          rw [entry_page htT hi', Pte.target_of_present hp] at habs₁
          cases habs₁
        have hread : (s₁.setPte tF i (entry s (dF * 1024 + i)).readOnly).pageTable tF i
            = (entry s (dF * 1024 + i)).readOnly := by
          simp [Mem.setPte]
        rw [if_neg hnot, he₁, hread]
        obtain ⟨h₂, hframe₂, -, hcopied⟩ :=
          h₁.share htF₁ htT hne hoff hi' habs₁ he₁ hpres hshare.2.2.1 rfl
        refine Post.ret (Or.inr ⟨rfl, hshare, h₂, (hframe.mono fun _ => False.elim).trans hframe₂, ?_⟩)
        exact hcopied.frame hframe (Frame.refl (fun _ => False) _) (page_mem hdF hi')
          (page_mem hdT hi') not_false not_false

theorem tryToShare_spec (h : Inv lo own s) {p current : Task} {m n : Nat} (hm : 1 ≤ m ∧ m < 64)
    (hn : 1 ≤ n ∧ n < 64) (hmn : m ≠ n) (hp : p.startCode = m * 0x4000000)
    (hcur : current.startCode = n * 0x4000000) (ha : a < 0x4000000)
    (habs : (entry s (taskPage n a)).target = none) :
    Post (tryToShare a p current s) (SharePost lo own s (taskPage m a) (taskPage n a))
      (fun e => e = .oom s) := by
  have hsm : taskPage m a / 1024 * 1024 + tableIndex a = taskPage m a := by
    rw [taskPage_table (n := m)]; exact page_split _
  have hsn : taskPage n a / 1024 * 1024 + tableIndex a = taskPage n a := by
    rw [taskPage_table (n := n)]; exact page_split _
  have hslots := tryToShare_slots (a := a) h (by rw [hp]; exact taskPage_dir hm ha)
    (by rw [hcur]; exact taskPage_dir hn ha) rfl (dir_mem (taskPage_mem hm ha))
    (dir_mem (taskPage_mem hn ha)) (by unfold taskPage; omega) (by unfold taskPage; omega)
    (by rwa [hsn])
  rwa [hsm, hsn] at hslots

/-! ## Looking for a task to share with -/

/-- The task in slot `m` runs the executable of the current one, in slot `cur`, and has a page fit
for sharing at the same offset. -/
def Donor (s : Mem) (a cur : Nat) (current : Task) (m : Nat) : Prop :=
  m ≠ cur ∧ (∃ t, s.task m = some t ∧ t.executable = current.executable) ∧
    Shareable s (taskPage m a)

theorem sharePageLoop_spec (h : Inv lo own s) (hlay : Layout s) {cur : Nat} {current : Task}
    (hn : 1 ≤ cur ∧ cur < 64) (hcur : current.startCode = cur * 0x4000000) (ha : a < 0x4000000)
    (habs : (entry s (taskPage cur a)).target = none) : ∀ n, n < 64 →
    Post (sharePageLoop a cur current n s)
      (fun r => (r = (false, s) ∧ ∀ m, 1 ≤ m → m ≤ n → ¬ Donor s a cur current m) ∨
        ∃ m, 1 ≤ m ∧ m ≤ n ∧ Donor s a cur current m ∧ r.1 = true ∧ Inv lo own r.2 ∧
          Frame (· = taskPage cur a) s r.2 ∧ Copied s r.2 (taskPage m a) (taskPage cur a))
      (fun e => e = .oom s)
  | 0, _ => Post.ret (Or.inl ⟨rfl, fun m h1 h2 => by omega⟩)
  | n + 1, hlt => by
    have ih := sharePageLoop_spec h hlay hn hcur ha habs n (by omega)
    -- passing over task `n + 1`, which is no donor
    have hskip : ¬ Donor s a cur current (n + 1) →
        Post (sharePageLoop a cur current n s)
          (fun r => (r = (false, s) ∧ ∀ m, 1 ≤ m → m ≤ n + 1 → ¬ Donor s a cur current m) ∨
            ∃ m, 1 ≤ m ∧ m ≤ n + 1 ∧ Donor s a cur current m ∧ r.1 = true ∧ Inv lo own r.2 ∧
              Frame (· = taskPage cur a) s r.2 ∧ Copied s r.2 (taskPage m a) (taskPage cur a))
          (fun e => e = .oom s) := by
      intro hnot
      refine ih.imp ?_
      rintro r (⟨rfl, hall⟩ | ⟨m, h1, h2, hrest⟩)
      · refine Or.inl ⟨rfl, fun m h1 h2 => ?_⟩
        rcases Nat.lt_or_ge n m with hm | hm
        · rw [show m = n + 1 by omega]
          exact hnot
        · exact hall m h1 hm
      · exact Or.inr ⟨m, h1, by omega, hrest⟩
    unfold sharePageLoop
    cases ht : s.task (n + 1) with
    | none =>
      apply hskip
      rintro ⟨-, ⟨t, ht', -⟩, -⟩
      rw [ht] at ht'
      cases ht'
    | some p =>
      simp only
      split
      · next hno =>
        apply hskip
        rintro ⟨hne, ⟨t, ht', hexe⟩, -⟩
        rw [ht] at ht'
        cases ht'
        rcases hno with hno | hno
        · exact hne hno.symm
        · exact hno hexe
      · next hyes =>
        obtain ⟨hne, hexe⟩ := not_or.mp hyes
        refine Post.bind (tryToShare_spec h ⟨by omega, hlt⟩ hn (Ne.symm hne) (hlay _ _ ht) hcur ha
          habs) ?_
        rintro ⟨b, s₁⟩ (⟨heq, hunfit⟩ | ⟨hb, hfit, h₁, hframe, hcopied⟩)
        · cases heq
          simp only [Bool.false_eq_true, if_false]
          exact hskip fun hdonor => hunfit hdonor.2.2
        · cases hb
          simp only [if_true]
          exact Post.ret (Or.inr ⟨n + 1, by omega, le_rfl,
            ⟨Ne.symm hne, ⟨p, ht, not_not.mp hexe⟩, hfit⟩, rfl, h₁, hframe, hcopied⟩)

/-- `share_page` finds a task to share with. -/
def Shares (s : Mem) (a cur : Nat) (current : Task) : Prop :=
  (∃ x, current.executable = some x ∧ 2 ≤ s.iCount x) ∧
    ∃ m, 1 ≤ m ∧ m < 64 ∧ Donor s a cur current m

theorem sharePage_spec (h : Inv lo own s) (hlay : Layout s) {cur : Nat} {current : Task}
    (hn : 1 ≤ cur ∧ cur < 64) (hcur : current.startCode = cur * 0x4000000) (ha : a < 0x4000000)
    (habs : (entry s (taskPage cur a)).target = none) :
    Post (sharePage a cur current s)
      (fun r => (r = (false, s) ∧ ¬ Shares s a cur current) ∨
        (r.1 = true ∧ Shares s a cur current ∧ Inv lo own r.2 ∧
          Frame (· = taskPage cur a) s r.2 ∧
          ∃ m, 1 ≤ m ∧ m < 64 ∧ Donor s a cur current m ∧
            Copied s r.2 (taskPage m a) (taskPage cur a)))
      (fun e => e = .oom s) := by
  unfold sharePage
  cases hexe : current.executable with
  | none =>
    refine Post.ret (Or.inl ⟨rfl, ?_⟩)
    rintro ⟨⟨x, hx, -⟩, -⟩
    rw [hexe] at hx
    cases hx
  | some x =>
    simp only
    split
    · next hfew =>
      refine Post.ret (Or.inl ⟨rfl, ?_⟩)
      rintro ⟨⟨y, hy, hy2⟩, -⟩
      rw [hexe] at hy
      cases hy
      omega
    · next hmany =>
      refine (sharePageLoop_spec h hlay hn hcur ha habs (nrTasks - 1) (by decide)).imp ?_
      rintro r (⟨rfl, hall⟩ | ⟨m, h1, h2, hdonor, hr, h', hframe, hcopied⟩)
      · refine Or.inl ⟨rfl, ?_⟩
        rintro ⟨-, m, h1, h2, hdonor⟩
        exact hall m h1 (by unfold nrTasks; omega) hdonor
      · have hm : m < 64 := by unfold nrTasks at h2; omega
        exact Or.inr ⟨hr, ⟨⟨x, hexe, by omega⟩, m, h1, hm, hdonor⟩, h', hframe, m, h1, hm, hdonor,
          hcopied⟩

/-! ## The page fault -/

/-- How `do_no_page` fills the page `p`, at offset `tmp` of the task in slot `cur`. -/
inductive Loaded (file : ExeFile) (cur : Nat) (current : Task) (tmp p : Nat) (s s' : Mem) : Prop
  | empty (beyond : current.executable = none ∨ current.endData ≤ tmp)
      (fresh : Fresh s s' p (fun _ => 0))
  | shared {m : Nat} (inside : tmp < current.endData) (shares : Shares s tmp cur current)
      (slot : 1 ≤ m ∧ m < 64) (donor : Donor s tmp cur current m)
      (copied : Copied s s' (taskPage m tmp) p)
  | read {x : Nat} (exe : current.executable = some x) (inside : tmp < current.endData)
      (alone : ¬ Shares s tmp cur current)
      (fresh : Fresh s s' p (filePage file x current.endData tmp))

theorem doNoPage_spec (file : ExeFile) (h : Inv lo own s) (hlay : Layout s) {cur : Nat}
    {current : Task} (hn : 1 ≤ cur ∧ cur < 64) (hcur : current.startCode = cur * 0x4000000)
    (ha : a / 0x4000000 = cur) (habs : (entry s (a / 4096)).target = none) :
    Post (doNoPage file a cur current s)
      (fun s' => Inv lo own s' ∧ Frame (· = a / 4096) s s' ∧
        Loaded file cur current (a / 4096 * 4096 - cur * 0x4000000) (a / 4096) s s')
      (fun e => ∃ s', e = .oom s' ∧ Inv lo own s' ∧ Frame (fun _ => False) s s') := by
  have hp : a / 4096 ∈ userPages := by
    rw [mem_userPages]
    omega
  have hround : a / 4096 * 4096 / 4096 = a / 4096 := by omega
  have htmp : taskPage cur (a / 4096 * 4096 - cur * 0x4000000) = a / 4096 := by
    unfold taskPage
    omega
  have htlt : a / 4096 * 4096 - cur * 0x4000000 < 0x4000000 := by omega
  have habs' : (entry s (a / 4096 * 4096 / 4096)).target = none := by rw [hround, habs]
  unfold doNoPage
  simp only [hcur]
  generalize a / 4096 * 4096 - cur * 0x4000000 = tmp at *
  have hempty := getEmptyPage_spec h (a := a / 4096 * 4096) (by rwa [hround]) habs'
  rw [hround] at hempty
  cases hexe : current.executable with
  | none =>
    refine hempty.imp ?_
    rintro s' ⟨h', hframe, hfresh⟩
    exact ⟨h', hframe, Loaded.empty (Or.inl hexe) hfresh⟩
  | some x =>
    simp only
    split
    · next hbeyond =>
      refine hempty.imp ?_
      rintro s' ⟨h', hframe, hfresh⟩
      exact ⟨h', hframe, Loaded.empty (Or.inr hbeyond) hfresh⟩
    · next hinside =>
      have hshare := sharePage_spec h hlay hn hcur htlt (by rw [htmp, habs])
      refine Post.bind (hshare.mono (fun _ hr => hr) ?_) ?_
      · rintro e rfl
        exact ⟨s, rfl, h, Frame.refl _ s⟩
      · rintro ⟨b, s₁⟩ (⟨heq, halone⟩ | ⟨hb, hshares, h₁, hframe, m, h1, h2, hdonor, hcopied⟩)
        · cases heq
          simp only [Bool.false_eq_true, if_false]
          rcases getFreePage_spec h with hget | ⟨f, s₁, hget, g⟩
          · simp only [hget]
            exact Post.stop ⟨s, rfl, h, Frame.refl _ s⟩
          · have hnew := putNew_spec (filePage file x current.endData tmp) g
              (a := a / 4096 * 4096) (by rwa [hround]) habs'
            rw [hround] at hnew
            rcases hnew with ⟨s', hput, h', hframe, hfresh⟩ | ⟨hput, hfree⟩
            · simp only [hget, hput]
              exact Post.ret ⟨h', hframe, Loaded.read hexe (by omega) halone hfresh⟩
            · simp only [hget, hput]
              refine Post.bind (hfree.mono (fun _ hs => hs) (fun _ hf => hf.elim)) ?_
              rintro s' ⟨h', hframe⟩
              exact Post.stop ⟨s', rfl, h', hframe⟩
        · cases hb
          simp only [if_true]
          rw [htmp] at hframe hcopied
          exact Post.ret ⟨h₁, hframe, Loaded.shared (by omega) hshares ⟨h1, h2⟩ hdonor hcopied⟩

end Linux011.Mm
