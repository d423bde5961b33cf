import Linux011.Mm.Fork

/-!
# What fork changes outside of main memory, and in the page directory

`Quiet` is what every function of the paging code leaves of the counters, the pages and the tables that do
not belong to main memory. `copyDirs_dirs` and `freeDirs_dirs` say which entries of the page directory the
two halves of a failing fork write. `counts_eq` turns equal page tables into equal counters.
-/

namespace Linux011.Mm

open Linux011.Lib

variable {lo : Nat} {own : Nat → Nat} {s s' s'' : Mem} {d t i f n : Nat}

structure Quiet (lo : Nat) (s s' : Mem) : Prop where
  memMap : ∀ nr, nr + lowMem < lo ∨ s.highMemory ≤ nr + lowMem → s'.memMap nr = s.memMap nr
  page : ∀ f < lo, s'.page f = s.page f
  table : ∀ t < lo, s'.pageTable t = s.pageTable t
  high : s'.highMemory = s.highMemory

namespace Quiet

theorem refl (lo : Nat) (s : Mem) : Quiet lo s s := ⟨fun _ _ => rfl, fun _ _ => rfl, fun _ _ => rfl, rfl⟩

theorem trans (h : Quiet lo s s') (h' : Quiet lo s' s'') : Quiet lo s s'' := by
  refine ⟨fun nr hnr => ?_, fun f hf => ?_, fun t ht => ?_, h'.high.trans h.high⟩
  · have hnr' : nr + lowMem < lo ∨ s'.highMemory ≤ nr + lowMem := by
      rw [h.high]
      exact hnr
    rw [h'.memMap nr hnr', h.memMap nr hnr]
  · rw [h'.page f hf, h.page f hf]
  · rw [h'.table t ht, h.table t ht]

/-- A change that is not about any of it. -/
theorem of_eq (hmap : s'.memMap = s.memMap) (hpage : s'.page = s.page) (htable : s'.pageTable = s.pageTable)
    (hhigh : s'.highMemory = s.highMemory) : Quiet lo s s' :=
  ⟨fun _ _ => by rw [hmap], fun _ _ => by rw [hpage], fun _ _ => by rw [htable], hhigh⟩

theorem setPte (ht : lo ≤ t) (e : Pte) : Quiet lo s (s.setPte t i e) :=
  ⟨fun _ _ => rfl, fun _ _ => rfl, fun t' ht' => Function.update_of_ne (by omega) _ _, rfl⟩

theorem setCount (hlow : lowMem ≤ f) (hlo : lo ≤ f) (hhigh : f < s.highMemory) (v : UInt8) :
    Quiet lo s (s.setCount (mapNr f) v) := by
  refine ⟨fun nr hnr => ?_, fun _ _ => rfl, fun _ _ => rfl, rfl⟩
  have hne : nr ≠ mapNr f := by
    unfold mapNr
    omega
  show Function.update s.memMap (mapNr f) v nr = s.memMap nr
  rw [Function.update_of_ne hne]

theorem setDir (d : Nat) (e : Pte) : Quiet lo s (s.setDir d e) := of_eq rfl rfl rfl rfl

end Quiet

/-- `get_free_page` takes a page of main memory. -/
theorem getFreePage_quiet (hfixed : Fixed lo s) : Quiet lo s (getFreePage s).2 := by
  unfold getFreePage
  cases hscan : scanFree s.memMap pagingPages with
  | none => exact Quiet.refl lo s
  | some nr =>
    obtain ⟨hnr, hz⟩ := scanFree_some hscan
    have hmain : lo ≤ nr + lowMem ∧ nr + lowMem < s.highMemory := by
      by_contra hout
      exact hfixed.reserved nr hnr (by omega) hz
    refine ⟨fun nr' hnr' => ?_, fun f hf => ?_, fun t ht => ?_, rfl⟩
    · exact Function.update_of_ne (by omega) _ _
    · exact Function.update_of_ne (by omega) _ _
    · exact Function.update_of_ne (by omega) _ _

/-- The frames that a table maps: below `LOW_MEM`, or in main memory, and then the table is there too. -/
def Mapped (lo : Nat) (s : Mem) (t n : Nat) : Prop :=
  ∀ i < n, ∀ f, (s.pageTable t i).target = some f → f < lowMem ∨ (lo ≤ f ∧ f < s.highMemory ∧ lo ≤ t)

/-- A table of user space. -/
theorem Inv.mapped (h : Inv lo own s) (ht : tableOf s d = some t) : Mapped lo s t 1024 := by
  intro i hi f hf
  have hp := page_mem (tableOf_eq_some.mp ht).1 hi
  have href : (view s own).ref (d * 1024 + i) = some f := by
    rw [view_ref, entry_page ht hi, hf]
  refine (h.good.ent_frame _ hp f href).imp_right fun hmain => ?_
  exact ⟨hmain.1, hmain.2, (table_main h ht).1⟩

/-- The first table of the kernel. -/
theorem Fixed.mapped (h : Fixed lo s) : Mapped lo s (s.pgDir 0).frame 0xA0 := by
  intro i hi f hf
  left
  rw [← (Pte.target_eq_some.mp hf).2]
  exact h.kernel_low i hi

/-! ## Copying -/

section copying
variable {tF tT dF dT nr : Nat}

theorem copyEntry_quiet (hlo : lowMem ≤ lo) (hT : lo ≤ tT) (hne : tF ≠ tT)
    (hmap : ∀ f, (s.pageTable tF i).target = some f → f < lowMem ∨ (lo ≤ f ∧ f < s.highMemory ∧ lo ≤ tF)) :
    Quiet lo s (copyEntry tF tT s i) ∧
      ∀ j, ((copyEntry tF tT s i).pageTable tF j).target = (s.pageTable tF j).target := by
  cases hpres : (s.pageTable tF i).present with
  | false =>
    rw [copyEntry_absent hpres]
    exact ⟨Quiet.refl lo s, fun _ => rfl⟩
  | true =>
    rcases hmap _ (Pte.target_of_present hpres) with hlow | ⟨h1, h2, h3⟩
    · rw [copyEntry_low hpres hlow]
      refine ⟨Quiet.setPte hT _, fun j => ?_⟩
      show ((Function.update s.pageTable tT _) tF j).target = _
      rw [Function.update_of_ne hne]
    · rw [copyEntry_main rfl hpres (Nat.le_trans hlo h1) hne]
      have hptes : Quiet lo s ((s.setPte tF i (s.pageTable tF i).readOnly).setPte tT i
          (s.pageTable tF i).readOnly) := (Quiet.setPte h3 _).trans (Quiet.setPte hT _)
      refine ⟨hptes.trans (Quiet.setCount (Nat.le_trans hlo h1) h1 ?_ _), fun j => ?_⟩
      · rw [hptes.high]
        exact h2
      show ((Function.update (Function.update s.pageTable tF _) tT _) tF j).target = _
      rw [Function.update_of_ne hne, Function.update_self]
      by_cases hji : j = i
      · rw [hji, Function.update_self]
        rfl
      · rw [Function.update_of_ne hji]

theorem copyTable_quiet (hlo : lowMem ≤ lo) (hT : lo ≤ tT) (hne : tF ≠ tT) (hmap : Mapped lo s tF nr) :
    Quiet lo s (copyTable nr tF tT s) := by
  -- The loop changes no target of the table it reads.
  let I : List Nat → Mem → Prop := fun cs s' => (∀ c ∈ cs, c < nr) ∧ Quiet lo s s' ∧
    ∀ j, (s'.pageTable tF j).target = (s.pageTable tF j).target
  have hstep : ∀ c cs s₁, I (c :: cs) s₁ → I cs (copyEntry tF tT s₁ c) := by
    intro c cs s₁ hI
    obtain ⟨hlt, hquiet, hsame⟩ := hI
    obtain ⟨hquiet₂, hsame₂⟩ := copyEntry_quiet (s := s₁) (i := c) hlo hT hne (by
      intro f hf
      rw [hsame] at hf
      rw [hquiet.high]
      exact hmap c (hlt c List.mem_cons_self) f hf)
    exact ⟨fun c' hc' => hlt c' (List.mem_cons_of_mem c hc'), hquiet.trans hquiet₂,
      fun j => (hsame₂ j).trans (hsame j)⟩
  have hlt : ∀ c ∈ List.range nr, c < nr := fun c hc => List.mem_range.mp hc
  exact (foldl_invariant hstep (List.range nr) s ⟨hlt, Quiet.refl lo s, fun _ => rfl⟩).2.1

theorem copyEntry_table (hF : t ≠ tF) (hT : t ≠ tT) :
    (copyEntry tF tT s i).pageTable t = s.pageTable t := by
  unfold copyEntry
  dsimp only
  split
  · split
    · show Function.update (Function.update s.pageTable tT _) tF _ t = _
      rw [Function.update_of_ne hF, Function.update_of_ne hT]
    · show Function.update s.pageTable tT _ t = _
      rw [Function.update_of_ne hT]
  · rfl

theorem copyTable_table (hF : t ≠ tF) (hT : t ≠ tT) :
    (copyTable nr tF tT s).pageTable t = s.pageTable t := by
  let I : List Nat → Mem → Prop := fun _ s' => s'.pageTable t = s.pageTable t
  have hstep : ∀ c cs s₁, I (c :: cs) s₁ → I cs (copyEntry tF tT s₁ c) :=
    fun c cs s₁ hI => (copyEntry_table hF hT).trans hI
  exact foldl_invariant hstep (List.range nr) s rfl

/-- The page tables outside the directory entries of `S` are as before. -/
def Untouched (S : Nat → Prop) (s s' : Mem) : Prop :=
  ∀ d t, ¬ S d → tableOf s d = some t → s'.pageTable t = s.pageTable t

/-- The directory entries `[d, d + n)` were empty or have got a table, the others are as before. -/
def Filled (d n : Nat) (s s' : Mem) : Prop :=
  ∀ d', s'.pgDir d' = s.pgDir d' ∨ (d ≤ d' ∧ d' < d + n ∧ (s.pgDir d').present = false ∧
    ∃ f, s'.pgDir d' = Pte.user f)

theorem Filled.tableOf (h : Filled d n s s') {d' : Nat} (ht : Mm.tableOf s d' = some t) :
    Mm.tableOf s' d' = some t := by
  obtain ⟨hd', hpres, hframe⟩ := tableOf_eq_some.mp ht
  rcases h d' with heq | ⟨-, -, habs, -⟩
  · exact tableOf_eq_some.mpr ⟨hd', by rw [heq, hpres], by rw [heq, hframe]⟩
  · rw [hpres] at habs
    cases habs

/-- The table put into an empty directory entry was nobody's. -/
theorem Got.ne_table {s₁ : Mem} (g : Got lo own s f s₁) (hd : d ∈ userDirs)
    (hpres : (s.pgDir d).present = false) {d' : Nat} (ht : tableOf s d' = some t) : t ≠ f := by
  obtain ⟨h₂, hT₂, hother, -⟩ := g.newTable hd hpres
  have hne : d' ≠ d := by
    rintro rfl
    rw [(tableOf_eq_none hd).mpr hpres] at ht
    cases ht
  intro heq
  rw [← hother d' hne, heq] at ht
  exact hne (table_inj h₂ hT₂ d' ht)

/-- A table is put into an empty entry. -/
theorem Filled.put {f : Nat} (hpres : (s.pgDir d).present = false)
    (hdir : s'.pgDir = Function.update s.pgDir d (Pte.user f)) : Filled d 1 s s' := by
  intro d'
  rw [hdir]
  by_cases hd : d' = d
  · subst hd
    rw [Function.update_self]
    exact Or.inr ⟨Nat.le_refl d', Nat.lt_succ_self d', hpres, f, rfl⟩
  · rw [Function.update_of_ne hd]
    exact Or.inl rfl

theorem Filled.cons {s'' : Mem} (h : Filled d 1 s s') (h' : Filled (d + 1) n s' s'') : Filled d (n + 1) s s'' := by
  intro d'
  rcases h' d' with heq | ⟨h1, h2, h3, f, hf⟩
  · rw [heq]
    exact (h d').imp_right fun ⟨h1, h2, h3⟩ => ⟨h1, by omega, h3⟩
  · rcases h d' with heq | ⟨h1', h2', -⟩
    · exact Or.inr ⟨by omega, by omega, heq ▸ h3, f, hf⟩
    · omega

theorem Untouched.cons {s'' : Mem} {e m : Nat} (hfilled : Filled e m s s') (h : Untouched (· = d) s s')
    (h' : Untouched (fun x => d + 1 ≤ x ∧ x < d + 1 + n) s' s'') :
    Untouched (fun x => d ≤ x ∧ x < d + (n + 1)) s s'' := by
  intro x t hx ht
  rw [h' x t (by omega) (hfilled.tableOf ht), h x t (by omega) ht]

theorem quiet_setDir {f : Nat} {s₁ : Mem} (hfixed : Fixed lo s) (hget : getFreePage s = (some f, s₁)) (d : Nat) :
    Quiet lo s (s₁.setDir d (Pte.user f)) := by
  have hquiet := getFreePage_quiet hfixed
  rw [hget] at hquiet
  exact hquiet.trans (Quiet.setDir _ _)

/-- The table of one directory entry is copied. -/
theorem Got.copyDir_dirs {f : Nat} {s₁ : Mem} (g : Got lo own s f s₁) (h : Inv lo own s)
    (hget : getFreePage s = (some f, s₁)) (hdF : dF ∈ userDirs) (hdT : dT ∈ userDirs)
    (hFpres : (s.pgDir dF).present = true) (hTpres : (s.pgDir dT).present = false) (hFT : dF ≠ dT)
    (hoff : dF % 16 = dT % 16) :
    let s₃ := copyTable 1024 ((s₁.setDir dT (Pte.user f)).pgDir dF).frame f (s₁.setDir dT (Pte.user f))
    Inv lo own s₃ ∧ Quiet lo s s₃ ∧ Filled dT 1 s s₃ ∧ Untouched (· = dF) s s₃ := by
  intro s₃
  obtain ⟨h₃, -, hdir₃, -⟩ := g.copyDir hdF hdT hFpres hTpres hFT hoff
  obtain ⟨h₂, hT₂, hother, -⟩ := g.newTable hdT hTpres
  have hF₂ : tableOf (s₁.setDir dT (Pte.user f)) dF =
      some ((s₁.setDir dT (Pte.user f)).pgDir dF).frame := by
    rw [hother dF hFT]
    show _ = some (Function.update s₁.pgDir dT _ dF).frame
    rw [Function.update_of_ne hFT, g.dir]
    exact tableOf_eq_some.mpr ⟨hdF, hFpres, rfl⟩
  have hdiff : ((s₁.setDir dT (Pte.user f)).pgDir dF).frame ≠ f := by
    intro heq
    rw [heq] at hF₂
    exact hFT (table_inj h₂ hT₂ dF hF₂)
  have hquiet := copyTable_quiet h.fixed.lo_le g.main.1 hdiff (h₂.mapped hF₂)
  refine ⟨h₃, (quiet_setDir h.fixed hget dT).trans hquiet, Filled.put hTpres hdir₃, fun d t hd ht => ?_⟩
  have hf := g.ne_table hdT hTpres ht
  have hdT' : d ≠ dT := by
    rintro rfl
    rw [(tableOf_eq_none hdT).mpr hTpres] at ht
    cases ht
  have hF : t ≠ ((s₁.setDir dT (Pte.user f)).pgDir dF).frame := by
    intro heq
    rw [← heq] at hF₂
    rw [← hother d hdT'] at ht
    exact hd (table_inj h₂ hF₂ d ht)
  rw [copyTable_table hF hf]
  show s₁.pageTable t = s.pageTable t
  rw [g.table, Function.update_of_ne hf]

/-- The outer loop of `copy_page_tables` writes only to the directory entries of the copy, and to the
tables of the two ranges. -/
theorem copyDirs_dirs : ∀ (n dF dT : Nat) (s : Mem), Inv lo own s →
    16 ≤ dF → 16 ≤ dT → dF < 1024 → dT < 1024 → dF % 16 + n ≤ 16 → dF % 16 = dT % 16 →
    dF / 16 ≠ dT / 16 →
    Post (copyDirs 1024 n dF dT s) (fun r => Quiet lo s r.2 ∧ Filled dT n s r.2 ∧
        Untouched (fun d => dF ≤ d ∧ d < dF + n) s r.2) (fun _ => True)
  | 0, dF, dT, s, _, _, _, _, _, _, _, _ =>
    Post.ret ⟨Quiet.refl lo s, fun _ => Or.inl rfl, fun _ _ _ _ => rfl⟩
  | n + 1, dF, dT, s, h, hF16, hT16, hFlt, hTlt, hn, hoff, hne => by
    have hdF : dF ∈ userDirs := mem_userDirs.mpr ⟨hF16, hFlt⟩
    have hdT : dT ∈ userDirs := mem_userDirs.mpr ⟨hT16, hTlt⟩
    -- The rest of the loop, from a state that has the first directory entry behind it.
    have hrest : ∀ s₁, Inv lo own s₁ → Quiet lo s s₁ → Filled dT 1 s s₁ → Untouched (· = dF) s s₁ →
        Post (copyDirs 1024 n (dF + 1) (dT + 1) s₁) (fun r => Quiet lo s r.2 ∧ Filled dT (n + 1) s r.2 ∧
          Untouched (fun d => dF ≤ d ∧ d < dF + (n + 1)) s r.2) (fun _ => True) := by
      intro s₁ h₁ hquiet hfilled hsame
      rcases Nat.eq_zero_or_pos n with rfl | hpos
      · exact Post.ret ⟨hquiet, hfilled, fun d t hd => hsame d t (by omega)⟩
      refine (copyDirs_dirs n (dF + 1) (dT + 1) s₁ h₁ (by omega) (by omega) (by omega) (by omega)
        (by omega) (by omega) (by omega)).imp ?_
      rintro ⟨b, s₂⟩ ⟨hquiet₂, hfilled₂, hsame₂⟩
      exact ⟨hquiet.trans hquiet₂, hfilled.cons hfilled₂, hsame.cons hfilled hsame₂⟩
    cases hTpres : (s.pgDir dT).present with
    | true =>
      rw [copyDirs_exists hTpres]
      exact Post.stop trivial
    | false =>
      cases hFpres : (s.pgDir dF).present with
      | false =>
        rw [copyDirs_absent hTpres hFpres]
        exact hrest s h (Quiet.refl lo s) (fun _ => Or.inl rfl) fun _ _ _ _ => rfl
      | true =>
        rcases getFreePage_spec h with hget | ⟨f, s₁, hget, g⟩
        · rw [copyDirs_oom hTpres hFpres hget]
          exact Post.ret ⟨Quiet.refl lo s, fun _ => Or.inl rfl, fun _ _ _ _ => rfl⟩
        · rw [copyDirs_table hTpres hFpres hget]
          have hFT : dF ≠ dT := by omega
          obtain ⟨h₃, hquiet, hfilled, hsame⟩ := g.copyDir_dirs h hget hdF hdT hFpres hTpres hFT hoff
          exact hrest _ h₃ hquiet hfilled hsame

/-- The same for the directory entry that the first fork copies from the kernel. -/
theorem copyDirs_kernel_dirs (h : Inv lo own s) (hn : n ≤ 1) (hdT : dT ∈ userDirs) :
    Post (copyDirs 0xA0 n 0 dT s)
      (fun r => Quiet lo s r.2 ∧ Filled dT n s r.2 ∧ Untouched (fun _ => False) s r.2)
      (fun _ => (s.pgDir dT).present = true) := by
  rcases Nat.eq_zero_or_pos n with rfl | hpos
  · exact Post.ret ⟨Quiet.refl lo s, fun _ => Or.inl rfl, fun _ _ _ _ => rfl⟩
  obtain rfl : n = 0 + 1 := by omega
  cases hTpres : (s.pgDir dT).present with
  | true =>
    rw [copyDirs_exists hTpres]
    exact Post.stop rfl
  | false =>
    cases hFpres : (s.pgDir 0).present with
    | false =>
      rw [copyDirs_absent hTpres hFpres, copyDirs_done]
      exact Post.ret ⟨Quiet.refl lo s, fun _ => Or.inl rfl, fun _ _ _ _ => rfl⟩
    | true =>
      rcases getFreePage_spec h with hget | ⟨f, s₁, hget, g⟩
      · rw [copyDirs_oom hTpres hFpres hget]
        exact Post.ret ⟨Quiet.refl lo s, fun _ => Or.inl rfl, fun _ _ _ _ => rfl⟩
      · rw [copyDirs_table hTpres hFpres hget, copyDirs_done]
        obtain ⟨h₂, hT₂, -, -, -, hempty⟩ := g.newTable hdT hTpres
        obtain ⟨-, -, hdir₃⟩ := copyTable_kernel h₂ rfl hT₂ hempty
        have hlow := h₂.fixed.kernel_dir 0 (by decide)
        have hlo := h.fixed.lo_le
        have hmain := g.main.1
        have hne := Nat.ne_of_lt (Nat.lt_of_lt_of_le hlow (Nat.le_trans hlo hmain))
        have hdir : (s₁.setDir dT (Pte.user f)).pgDir = Function.update s.pgDir dT (Pte.user f) := by
          rw [← g.dir]
          rfl
        have hquiet := (quiet_setDir h.fixed hget dT).trans (copyTable_quiet hlo hmain hne h₂.fixed.mapped)
        have hsame : ∀ d t, tableOf s d = some t →
            (copyTable 0xA0 ((s₁.setDir dT (Pte.user f)).pgDir 0).frame f
              (s₁.setDir dT (Pte.user f))).pageTable t = s.pageTable t := by
          intro d t ht
          have hf := g.ne_table hdT hTpres ht
          have hF := Nat.ne_of_gt (Nat.lt_of_lt_of_le hlow (Nat.le_trans hlo (table_main h ht).1))
          rw [copyTable_table hF hf]
          show s₁.pageTable t = s.pageTable t
          rw [g.table, Function.update_of_ne hf]
        have hput := hdir₃.trans hdir
        generalize copyTable 0xA0 ((s₁.setDir dT (Pte.user f)).pgDir 0).frame f
          (s₁.setDir dT (Pte.user f)) = s₃ at *
        exact Post.ret ⟨hquiet, Filled.put hTpres hput, fun d t _ ht => hsame d t ht⟩

end copying

/-! ## Freeing -/

theorem freePage_quiet (hlo : lowMem ≤ lo) (hf : f < lowMem ∨ (lo ≤ f ∧ f < s.highMemory))
    (hok : freePage f s = .ok s') : Quiet lo s s' := by
  rw [freePage_ok hok]
  rcases hf with hlow | ⟨h1, h2⟩
  · rw [if_neg (Nat.not_le.mpr hlow)]
    exact Quiet.refl lo s
  · rw [if_pos (Nat.le_trans hlo h1)]
    exact Quiet.setCount (Nat.le_trans hlo h1) h1 h2 _

theorem freeEntry_quiet (hlo : lowMem ≤ lo) (ht : lo ≤ t)
    (hmap : ∀ f, (s.pageTable t i).target = some f → f < lowMem ∨ (lo ≤ f ∧ f < s.highMemory))
    (hok : freeEntry t s i = .ok s') : Quiet lo s s' := by
  obtain ⟨s₁, rfl, hs₁⟩ := freeEntry_ok hok
  rcases hs₁ with rfl | ⟨hpres, hf⟩
  · exact Quiet.setPte ht _
  · exact (freePage_quiet hlo (hmap _ (Pte.target_of_present hpres)) hf).trans (Quiet.setPte ht _)

theorem freeTable_quiet (hlo : lowMem ≤ lo) (ht : lo ≤ t) (hmap : Mapped lo s t 1024) :
    Post (freeTable t s) (Quiet lo s) (fun _ => True) := by
  -- The entries still to come are as they were, so they map what `hmap` says.
  let I : List Nat → Mem → Prop := fun cs s' => cs.Nodup ∧ (∀ c ∈ cs, c < 1024) ∧ Quiet lo s s' ∧
    ∀ j ∈ cs, s'.pageTable t j = s.pageTable t j
  have hstep : ∀ c cs s₁, I (c :: cs) s₁ → Post (freeEntry t s₁ c) (I cs) (fun _ => True) := by
    intro c cs s₁ hI
    obtain ⟨hnodup, hlt, hquiet, hsame⟩ := hI
    obtain ⟨hnotin, hnodup'⟩ := List.nodup_cons.mp hnodup
    refine ⟨fun s₂ hok => ?_, fun _ _ => trivial⟩
    have hquiet₂ := freeEntry_quiet hlo ht (by
      intro f hf
      rw [hsame c List.mem_cons_self] at hf
      rw [hquiet.high]
      exact (hmap c (hlt c List.mem_cons_self) f hf).imp_right fun h => ⟨h.1, h.2.1⟩) hok
    refine ⟨hnodup', fun j hj => hlt j (List.mem_cons_of_mem c hj), hquiet.trans hquiet₂, ?_⟩
    intro j hj
    have hne : j ≠ c := fun heq => hnotin (heq ▸ hj)
    rw [freeEntry_table hok, Function.update_self, Function.update_of_ne hne,
      hsame j (List.mem_cons_of_mem c hj)]
  have hlt : ∀ c ∈ List.range 1024, c < 1024 := fun c hc => List.mem_range.mp hc
  have hnodup : (List.range 1024).Nodup := List.nodup_range
  unfold freeTable
  generalize List.range 1024 = L at *
  exact (Post.foldlM hstep L s ⟨hnodup, hlt, Quiet.refl lo s, fun _ _ => rfl⟩).imp fun _ h => h.2.2.1

theorem freeTable_table {t' : Nat} (hne : t' ≠ t) :
    Post (freeTable t s) (fun s' => s'.pageTable t' = s.pageTable t') (fun _ => True) := by
  let I : List Nat → Mem → Prop := fun _ s' => s'.pageTable t' = s.pageTable t'
  have hstep : ∀ c cs s₁, I (c :: cs) s₁ → Post (freeEntry t s₁ c) (I cs) (fun _ => True) := by
    intro c cs s₁ hI
    refine ⟨fun s₂ hok => ?_, fun _ _ => trivial⟩
    have hdone : s₂.pageTable t' = s₁.pageTable t' := by
      rw [freeEntry_table hok, Function.update_of_ne hne]
    exact hdone.trans hI
  exact Post.foldlM hstep (List.range 1024) s rfl

/-- The directory after `free_page_tables` has been over the entries `[d, d + n)`. -/
def Emptied (d n : Nat) (s s' : Mem) : Prop :=
  ∀ d', s'.pgDir d' =
    if d ≤ d' ∧ d' < d + n ∧ (s.pgDir d').present = true then Pte.zero else s.pgDir d'

theorem freeDirs_dirs : ∀ (n d : Nat) (s : Mem), Inv lo own s → 16 ≤ d → d + n ≤ 1024 →
    Post (freeDirs n d s) (fun s' => Quiet lo s s' ∧ Emptied d n s s' ∧
        Untouched (fun d' => d ≤ d' ∧ d' < d + n) s s') (fun _ => True)
  | 0, d, s, _, _, _ => by
    refine Post.ret ⟨Quiet.refl lo s, fun d' => ?_, fun _ _ _ _ => rfl⟩
    rw [if_neg (by omega)]
  | n + 1, d, s, h, hd, hn => by
    have hdu : d ∈ userDirs := mem_userDirs.mpr ⟨hd, by omega⟩
    cases hpres : (s.pgDir d).present with
    | false =>
      rw [freeDirs_absent hpres]
      refine (freeDirs_dirs n (d + 1) s h (by omega) (by omega)).imp ?_
      rintro s' ⟨hquiet, hempty, hsame⟩
      refine ⟨hquiet, fun d' => ?_, fun d' t hd' => hsame d' t (by omega)⟩
      rw [hempty d']
      by_cases hdd : d' = d
      · subst hdd
        rw [if_neg (by omega), if_neg (by simp [hpres])]
      · have hrange : (d + 1 ≤ d' ∧ d' < d + 1 + n) ↔ (d ≤ d' ∧ d' < d + (n + 1)) := by omega
        simp only [← and_assoc, hrange]
    | true =>
      have ht : tableOf s d = some (s.pgDir d).frame := tableOf_eq_some.mpr ⟨hdu, hpres, rfl⟩
      obtain ⟨hmain, hhigh⟩ := table_main h ht
      have hround : Post (freeTable (s.pgDir d).frame s >>= fun s' => freePage (s.pgDir d).frame s')
          (fun s' => Quiet lo s s' ∧ ∀ t', t' ≠ (s.pgDir d).frame → s'.pageTable t' = s.pageTable t')
          (fun _ => True) := by
        have htables : ∀ s₁, freeTable (s.pgDir d).frame s = .ok s₁ →
            ∀ t', t' ≠ (s.pgDir d).frame → s₁.pageTable t' = s.pageTable t' :=
          fun s₁ hok t' hne => (freeTable_table hne).of_ok s₁ hok
        refine Post.bind ((freeTable_quiet h.fixed.lo_le hmain (h.mapped ht)).and ⟨htables, fun _ _ =>
          trivial⟩ |>.mono (fun _ hr => hr) fun _ _ => trivial) ?_
        rintro s₁ ⟨hquiet, hsame⟩
        refine ⟨fun s₂ hok => ⟨hquiet.trans (freePage_quiet h.fixed.lo_le (Or.inr ⟨hmain, ?_⟩) hok), ?_⟩,
          fun _ _ => trivial⟩
        · rw [hquiet.high]
          exact hhigh
        · intro t' hne
          rw [freePage_table hok, hsame t' hne]
      rw [freeDirs_present hpres, ← bind_assoc]
      refine Post.bind (((dropTable h ht).and hround).mono (fun _ hr => hr) fun _ _ => trivial) ?_
      rintro s₁ ⟨⟨h₁, -, hdir₁⟩, hquiet₁, hsame₁⟩
      refine (freeDirs_dirs n (d + 1) _ h₁ (by omega) (by omega)).imp ?_
      rintro s' ⟨hquiet, hempty, hsame⟩
      refine ⟨(hquiet₁.trans (Quiet.setDir _ _)).trans hquiet, fun d' => ?_, fun d' t hd' ht' => ?_⟩
      swap
      · have hdd : d' ≠ d := by omega
        have hne : t ≠ (s.pgDir d).frame := fun heq => hdd (table_inj h ht d' (heq ▸ ht'))
        have ht₁ : tableOf (s₁.setDir d Pte.zero) d' = some t := by
          rw [← ht']
          simp only [tableOf, hdir₁, Function.update_of_ne hdd]
        rw [hsame d' t (by omega) ht₁]
        exact hsame₁ t hne
      rw [hempty d', hdir₁]
      by_cases hdd : d' = d
      · subst hdd
        rw [Function.update_self, if_neg (by omega),
          if_pos ⟨Nat.le_refl d', Nat.lt_add_of_pos_right (Nat.succ_pos n), hpres⟩]
      · rw [Function.update_of_ne hdd]
        have hrange : (d + 1 ≤ d' ∧ d' < d + 1 + n) ↔ (d ≤ d' ∧ d' < d + (n + 1)) := by omega
        simp only [← and_assoc, hrange]

/-! ## The counters -/

/-- Where every page is mapped as before and owned as before, the counters are as before. -/
theorem counts_eq (h : Inv lo own s) (h' : Inv lo own s') (hquiet : Quiet lo s s')
    (hdir : s'.pgDir = s.pgDir)
    (hent : ∀ p ∈ userPages, (entry s' p).target = (entry s p).target) : s'.memMap = s.memMap := by
  have hlo := h.fixed.lo_le
  funext nr
  by_cases hout : nr + lowMem < lo ∨ s.highMemory ≤ nr + lowMem
  · exact hquiet.memMap nr hout
  · have h1 : lo ≤ nr + lowMem := by omega
    have h2 : nr + lowMem < s.highMemory := by omega
    have hnr : mapNr (nr + lowMem) = nr := Nat.add_sub_cancel nr lowMem
    have hcount := h.good.count _ h1 h2
    have hcount' := h'.good.count (nr + lowMem) h1 (by rw [hquiet.high]; exact h2)
    have hpte : (view s' own).pteRefs (nr + lowMem) = (view s own).pteRefs (nr + lowMem) := by
      apply refs_congr
      intro p hp
      rw [view_ref, view_ref, hent p hp]
    have htable : (view s' own).dirRefs (nr + lowMem) = (view s own).dirRefs (nr + lowMem) := by
      apply refs_congr
      intro d _
      simp only [view_dir, tableOf, hdir]
    rw [hpte, htable, view_cnt (Nat.le_add_left lowMem nr), hnr] at hcount'
    rw [view_cnt (Nat.le_add_left lowMem nr), hnr] at hcount
    apply UInt8.toNat_inj.mp
    rw [hcount', hcount]
    rfl

end Linux011.Mm
