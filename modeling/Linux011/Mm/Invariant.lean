import Linux011.Mm.View

/-!
# The paging code keeps its invariant

`view` reads the abstract state off the directory, the tables and `mem_map`. `Inv` is `Good` for that
view together with what `mem_init` and `head.s` leave fixed. Each function of `mm/memory.c` gets one
specification: it never panics, it keeps `Inv`, and it says what becomes of `seen`, the contents and
dirty bit that each linear page shows.
-/

namespace Linux011.Mm

open Linux011.Lib

/-- The page table of a directory slot of user space. -/
def tableOf (s : Mem) (d : Nat) : Option Nat :=
  if 16 ≤ d ∧ d < 1024 ∧ (s.pgDir d).present then some (s.pgDir d).frame else none

/-- The entry that maps a linear page. -/
def entry (s : Mem) (p : Nat) : Pte :=
  match tableOf s (p / 1024) with
  | some t => s.pageTable t (p % 1024)
  | none => Pte.zero

def view (s : Mem) (own : Nat → Nat) : View where
  dir := tableOf s
  ent := entry s
  cnt := fun f => if lowMem ≤ f then (s.memMap (mapNr f)).toNat else 0
  own := own

/-- What a linear page shows: whether it has been stored to through its entry, and its bytes. -/
def seen (s : Mem) (p : Nat) : Option (Bool × (Nat → UInt8)) :=
  (entry s p).target.map fun f => ((entry s p).dirty, s.page f)

/-- What `mem_init` and `head.s` set up once: main memory starts at `lo`, `mem_map` never offers
anything outside it, and the tables of the kernel's own directory slots lie in low memory, map
everything writable, and start with the low 640 kB. -/
structure Fixed (lo : Nat) (s : Mem) : Prop where
  lo_le : lowMem ≤ lo
  high_le : s.highMemory ≤ lowMem + pagingPages
  reserved : ∀ nr < pagingPages, nr + lowMem < lo ∨ s.highMemory ≤ nr + lowMem → s.memMap nr ≠ 0
  kernel_dir : ∀ d < 16, (s.pgDir d).frame < lowMem
  kernel_low : ∀ i < 0xA0, (s.pageTable (s.pgDir 0).frame i).frame < lowMem
  kernel_rw : ∀ d < 16, ∀ i, (s.pageTable (s.pgDir d).frame i).present →
    (s.pageTable (s.pgDir d).frame i).rw = true

structure Inv (lo : Nat) (own : Nat → Nat) (s : Mem) : Prop where
  good : Good lo s.highMemory (view s own)
  fixed : Fixed lo s

/-- What no function below touches. -/
structure Same (s s' : Mem) : Prop where
  high : s'.highMemory = s.highMemory
  task : s'.task = s.task
  iCount : s'.iCount = s.iCount

theorem Same.refl (s : Mem) : Same s s := ⟨rfl, rfl, rfl⟩

theorem Same.trans {s s' s'' : Mem} (h : Same s s') (h' : Same s' s'') : Same s s'' :=
  ⟨h'.high.trans h.high, h'.task.trans h.task, h'.iCount.trans h.iCount⟩

/-! ## Reading and writing entries through the view -/

section views
variable {s : Mem} {own : Nat → Nat} {d t i p f : Nat} {e : Pte} {lo : Nat}

@[simp] theorem view_dir : (view s own).dir = tableOf s := rfl
@[simp] theorem view_ent : (view s own).ent = entry s := rfl
@[simp] theorem view_own : (view s own).own = own := rfl

theorem view_ref : (view s own).ref p = (entry s p).target := rfl

theorem view_cnt (hf : lowMem ≤ f) : (view s own).cnt f = (s.memMap (mapNr f)).toNat := by
  simp [view, hf]

theorem tableOf_eq_some : tableOf s d = some t ↔
    d ∈ userDirs ∧ (s.pgDir d).present = true ∧ (s.pgDir d).frame = t := by
  unfold tableOf
  rw [mem_userDirs]
  split <;> rename_i h
  · simp [h.1, h.2.1, h.2.2]
  · constructor
    · intro h'; simp at h'
    · rintro ⟨h1, h2, -⟩
      exact absurd ⟨h1.1, h1.2, h2⟩ h

theorem tableOf_eq_none (hd : d ∈ userDirs) : tableOf s d = none ↔ (s.pgDir d).present = false := by
  unfold tableOf
  rw [mem_userDirs] at hd
  simp [hd.1, hd.2]

theorem entry_of_table (ht : tableOf s d = some t) (hp : p / 1024 = d) :
    entry s p = s.pageTable t (p % 1024) := by
  simp [entry, hp, ht]

theorem entry_of_none (ht : tableOf s (p / 1024) = none) : entry s p = Pte.zero := by
  simp [entry, ht]

theorem view_setCount (hf : lowMem ≤ f) (v : UInt8) :
    view (s.setCount (mapNr f) v) own = (view s own).setCnt f v.toNat := by
  have hcnt : (view (s.setCount (mapNr f) v) own).cnt
      = Function.update (view s own).cnt f v.toNat := by
    funext g
    by_cases hg : g = f
    · subst hg; simp [view, Mem.setCount, hf]
    · have hne : lowMem ≤ g → mapNr g ≠ mapNr f := by
        intro hlg
        unfold mapNr
        omega
      rw [Function.update_of_ne hg]
      by_cases hlg : lowMem ≤ g
      · simp [view, Mem.setCount, hlg, Function.update_of_ne (hne hlg)]
      · simp [view, hlg]
  exact congrArg (fun c => View.mk _ _ c _) hcnt

theorem tableOf_setPte : tableOf (s.setPte t i e) = tableOf s := rfl

/-- Writing an entry of the table of slot `d` changes one entry of the view: no other slot has the
same table. -/
theorem entry_setPte (hinj : ∀ d', tableOf s d' = some t → d' = d) (ht : tableOf s d = some t)
    (hi : i < 1024) :
    entry (s.setPte t i e) = Function.update (entry s) (d * 1024 + i) e := by
  funext q
  by_cases hq : q = d * 1024 + i
  · subst hq
    rw [Function.update_self]
    have hdiv : (d * 1024 + i) / 1024 = d := by omega
    have hmod : (d * 1024 + i) % 1024 = i := by omega
    rw [entry_of_table (t := t) (by rw [tableOf_setPte, ht]) hdiv, hmod]
    simp [Mem.setPte]
  · rw [Function.update_of_ne hq]
    cases hd' : tableOf s (q / 1024) with
    | none => rw [entry_of_none (s := s.setPte t i e) hd', entry_of_none hd']
    | some t' =>
      rw [entry_of_table (s := s.setPte t i e) hd' rfl, entry_of_table hd' rfl]
      by_cases htt : t' = t
      · subst htt
        have hdd : q / 1024 = d := hinj _ hd'
        have hne : q % 1024 ≠ i := by omega
        simp [Mem.setPte, Function.update_of_ne hne]
      · simp [Mem.setPte, Function.update_of_ne htt]

theorem view_setPte (hinj : ∀ d', tableOf s d' = some t → d' = d) (ht : tableOf s d = some t)
    (hi : i < 1024) :
    view (s.setPte t i e) own = (view s own).setEnt (d * 1024 + i) e := by
  have hent := entry_setPte (e := e) hinj ht hi
  exact congrArg (fun n => View.mk _ n _ _) hent

/-- A cleared table put into an empty slot, or a slot with a cleared table emptied, leaves every entry
as it was. -/
theorem view_setDir (hd : d ∈ userDirs) {r : Option Nat}
    (he : (e.present = true ∧ r = some e.frame) ∨ (e.present = false ∧ r = none))
    (hold : ∀ i, entry s (d * 1024 + i % 1024) = Pte.zero)
    (hnew : ∀ t, r = some t → ∀ i < 1024, s.pageTable t i = Pte.zero) :
    view (s.setDir d e) own = (view s own).setDir d r := by
  have hdir : tableOf (s.setDir d e) = Function.update (tableOf s) d r := by
    rw [mem_userDirs] at hd
    funext d'
    by_cases hdd : d' = d
    · subst hdd
      rcases he with ⟨hp, rfl⟩ | ⟨hp, rfl⟩ <;> simp [tableOf, Mem.setDir, hd.1, hd.2, hp]
    · simp [tableOf, Mem.setDir, Function.update_of_ne hdd]
  have hent : entry (s.setDir d e) = entry s := by
    funext q
    by_cases hq : q / 1024 = d
    · have hq' : entry s q = Pte.zero := by
        have := hold q
        rwa [show d * 1024 + q % 1024 = q by omega] at this
      rw [hq']
      have hds : tableOf (s.setDir d e) (q / 1024) = r := by rw [hdir, hq, Function.update_self]
      cases hr : r with
      | none => exact entry_of_none (by rw [hds, hr])
      | some t =>
        rw [entry_of_table (t := t) (by rw [hds, hr]) rfl]
        exact hnew t hr _ (Nat.mod_lt _ (by decide))
    · have hds : tableOf (s.setDir d e) (q / 1024) = tableOf s (q / 1024) := by
        rw [hdir, Function.update_of_ne hq]
      unfold entry
      rw [hds]
      rfl
  show View.mk (tableOf (s.setDir d e)) (entry (s.setDir d e)) _ _ = _
  rw [hdir, hent]
  rfl

end views

/-! ## What the updates leave alone -/

namespace Fixed

variable {lo : Nat} {s : Mem} {t i f d : Nat} {e : Pte}

theorem setPte (h : Fixed lo s) (ht : lowMem ≤ t) : Fixed lo (s.setPte t i e) := by
  have hkeep : ∀ d < 16, (s.setPte t i e).pageTable (s.pgDir d).frame
      = s.pageTable (s.pgDir d).frame := by
    intro d hd
    have := h.kernel_dir d hd
    exact Function.update_of_ne (by omega) _ _
  refine ⟨h.lo_le, h.high_le, h.reserved, h.kernel_dir, ?_, ?_⟩
  · intro j hj
    show ((s.setPte t i e).pageTable (s.pgDir 0).frame j).frame < lowMem
    rw [hkeep 0 (by decide)]
    exact h.kernel_low j hj
  · intro d hd
    show ∀ j, ((s.setPte t i e).pageTable (s.pgDir d).frame j).present →
      ((s.setPte t i e).pageTable (s.pgDir d).frame j).rw = true
    rw [hkeep d hd]
    exact h.kernel_rw d hd

theorem setCount (h : Fixed lo s) (h1 : lo ≤ f) (h2 : f < s.highMemory) (v : UInt8) :
    Fixed lo (s.setCount (mapNr f) v) := by
  refine ⟨h.lo_le, h.high_le, ?_, h.kernel_dir, h.kernel_low, h.kernel_rw⟩
  intro nr hnr hout
  have hlo := h.lo_le
  have hne : nr ≠ mapNr f := by
    simp only [Mem.setCount] at hout
    unfold mapNr
    omega
  simpa [Mem.setCount, Function.update_of_ne hne] using h.reserved nr hnr hout

theorem setDir (h : Fixed lo s) (hd : 16 ≤ d) : Fixed lo (s.setDir d e) := by
  have hne : ∀ d' < 16, Function.update s.pgDir d e d' = s.pgDir d' := by
    intro d' hd'
    exact Function.update_of_ne (by omega) _ _
  refine ⟨h.lo_le, h.high_le, h.reserved, ?_, ?_, ?_⟩
  · intro d' hd'
    simpa [Mem.setDir, hne d' hd'] using h.kernel_dir d' hd'
  · intro j hj
    simpa [Mem.setDir, hne 0 (by decide)] using h.kernel_low j hj
  · intro d' hd' j
    simpa [Mem.setDir, hne d' hd'] using h.kernel_rw d' hd' j

theorem setPage (h : Fixed lo s) (b : Nat → UInt8) : Fixed lo (s.setPage f b) :=
  ⟨h.lo_le, h.high_le, h.reserved, h.kernel_dir, h.kernel_low, h.kernel_rw⟩

end Fixed

theorem table_main {lo : Nat} {own : Nat → Nat} {s : Mem} {d t : Nat} (h : Inv lo own s)
    (ht : tableOf s d = some t) : lo ≤ t ∧ t < s.highMemory :=
  h.good.dir_main d (tableOf_eq_some.mp ht).1 t ht

theorem table_inj {lo : Nat} {own : Nat → Nat} {s : Mem} {d t : Nat} (h : Inv lo own s)
    (ht : tableOf s d = some t) : ∀ d', tableOf s d' = some t → d' = d := fun _ ht' =>
  h.good.dir_inj (tableOf_eq_some.mp ht').1 (tableOf_eq_some.mp ht).1 ht' ht

theorem seen_congr {s s' : Mem} {p q : Nat} (ht : (entry s' q).target = (entry s p).target)
    (hd : (entry s' q).dirty = (entry s p).dirty)
    (hpage : ∀ f, (entry s p).target = some f → s'.page f = s.page f) : seen s' q = seen s p := by
  unfold seen
  rw [ht, hd]
  cases hf : (entry s p).target with
  | none => rfl
  | some f => simp [hpage f hf]

/-! ## Page frames -/

theorem scanFree_some {m : Nat → UInt8} : ∀ {n nr : Nat}, scanFree m n = some nr →
    nr < n ∧ m nr = 0
  | n + 1, nr, h => by
    unfold scanFree at h
    split at h
    · next hz =>
      cases h
      exact ⟨Nat.lt_succ_self _, hz⟩
    · obtain ⟨h1, h2⟩ := scanFree_some h
      exact ⟨Nat.lt_succ_of_lt h1, h2⟩

theorem scanFree_none {m : Nat → UInt8} : ∀ {n : Nat}, scanFree m n = none → ∀ nr < n, m nr ≠ 0
  | n + 1, h, nr, hnr => by
    unfold scanFree at h
    split at h
    · simp at h
    · next hz =>
      rcases Nat.lt_succ_iff_lt_or_eq.mp hnr with hlt | rfl
      · exact scanFree_none h nr hlt
      · exact hz

/-- What a caller of `get_free_page` gets: a page nobody uses, cleared and owned by the caller. -/
structure Got (lo : Nat) (own : Nat → Nat) (s : Mem) (f : Nat) (s' : Mem) : Prop where
  main : lo ≤ f ∧ f < s.highMemory
  own_zero : own f = 0
  unmapped : ∀ p ∈ userPages, (entry s p).target ≠ some f
  inv : Inv lo (Function.update own f 1) s'
  dir : s'.pgDir = s.pgDir
  ent : entry s' = entry s
  table : s'.pageTable = Function.update s.pageTable f (fun _ => Pte.zero)
  page : s'.page = Function.update s.page f (fun _ => 0)
  same : Same s s'

theorem getFreePage_spec {lo : Nat} {own : Nat → Nat} {s : Mem} (h : Inv lo own s) :
    getFreePage s = (none, s) ∨ ∃ f s', getFreePage s = (some f, s') ∧ Got lo own s f s' := by
  unfold getFreePage
  cases hscan : scanFree s.memMap pagingPages with
  | none => exact Or.inl rfl
  | some nr =>
    obtain ⟨hnr, hz⟩ := scanFree_some hscan
    have hlo := h.fixed.lo_le
    have hmain : lo ≤ nr + lowMem ∧ nr + lowMem < s.highMemory := by
      by_contra hout
      exact h.fixed.reserved nr hnr (by omega) hz
    have hmap : mapNr (nr + lowMem) = nr := by unfold mapNr; omega
    have hcnt : (view s own).cnt (nr + lowMem) = 0 := by
      rw [view_cnt (by omega), hmap, hz]; rfl
    obtain ⟨hp0, hd0, ho0⟩ := h.good.free_page hmain.1 hmain.2 hcnt
    have hnot : ∀ d, tableOf s d ≠ some (nr + lowMem) := fun d hd =>
      refs_eq_zero_iff.mp hd0 d (tableOf_eq_some.mp hd).1 hd
    refine Or.inr ⟨nr + lowMem, _, rfl, ?_⟩
    generalize hf : nr + lowMem = f at *
    have hent : ∀ s' : Mem, s'.pgDir = s.pgDir →
        s'.pageTable = Function.update s.pageTable f (fun _ => Pte.zero) →
        entry s' = entry s := by
      intro s' hdir htab
      funext q
      have hdq : tableOf s' (q / 1024) = tableOf s (q / 1024) := by simp [tableOf, hdir]
      cases ht : tableOf s (q / 1024) with
      | none => rw [entry_of_none (hdq.trans ht), entry_of_none ht]
      | some t =>
        have hne : t ≠ f := fun heq => hnot _ (heq ▸ ht)
        rw [entry_of_table (hdq.trans ht) rfl, entry_of_table ht rfl, htab,
          Function.update_of_ne hne]
    have hE := hent { s with
      memMap := Function.update s.memMap nr 1
      pageTable := Function.update s.pageTable f (fun _ => Pte.zero)
      page := Function.update s.page f (fun _ => 0) } rfl rfl
    refine ⟨hmain, ho0, ?_, ⟨?_, ?_⟩, rfl, hE, rfl, rfl, rfl, rfl, rfl⟩
    · intro p hp hr
      exact refs_eq_zero_iff.mp hp0 p hp hr
    · -- the view changes as `Good.alloc` says: the tables it is read from are not `f`
      have hlow : lowMem ≤ f := Nat.le_trans hlo hmain.1
      have hview : view (s.setCount (mapNr f) 1) own = (view s own).setCnt f 1 :=
        view_setCount hlow 1
      have hgood := h.good.alloc hmain.1 hmain.2 hcnt
      rw [← hview, hmap] at hgood
      unfold view at hgood ⊢
      rw [hE]
      exact hgood
    · have hkeep : ∀ d < 16, Function.update s.pageTable f (fun _ => Pte.zero) (s.pgDir d).frame
          = s.pageTable (s.pgDir d).frame := by
        intro d hd
        have := h.fixed.kernel_dir d hd
        exact Function.update_of_ne (by omega) _ _
      refine ⟨hlo, h.fixed.high_le, ?_, h.fixed.kernel_dir, ?_, ?_⟩
      · intro nr' hnr' hout
        have hne : nr' ≠ nr := by
          simp only at hout
          omega
        simpa [Function.update_of_ne hne] using h.fixed.reserved nr' hnr' hout
      · intro j hj
        simpa [hkeep 0 (by decide)] using h.fixed.kernel_low j hj
      · intro d hd j
        simpa [hkeep d hd] using h.fixed.kernel_rw d hd j

/-- An owner that takes a page and passes it on leaves the owners as they were. -/
theorem own_restore {own : Nat → Nat} {f : Nat} (h : own f = 0) :
    Function.update (Function.update own f 1) f 0 = own := by
  rw [Function.update_idem]
  exact Function.update_eq_self_iff.mpr h.symm

theorem Got.seen {lo : Nat} {own : Nat → Nat} {s s' : Mem} {f : Nat} (g : Got lo own s f s')
    {p : Nat} (hp : p ∈ userPages) : seen s' p = seen s p := by
  apply seen_congr
  · rw [g.ent]
  · rw [g.ent]
  · intro f' hf'
    have hne : f' ≠ f := fun heq => g.unmapped p hp (heq ▸ hf')
    rw [g.page, Function.update_of_ne hne]

/-- A page just taken becomes the page table of an empty slot, and no entry changes. -/
theorem Got.install {lo : Nat} {own : Nat → Nat} {s s' : Mem} {f d : Nat} (g : Got lo own s f s')
    (hd : d ∈ userDirs) (hdir : tableOf s d = none) :
    Inv lo own (s'.setDir d (Pte.user f)) ∧ tableOf (s'.setDir d (Pte.user f)) d = some f ∧
      (∀ d', d' ≠ d → tableOf (s'.setDir d (Pte.user f)) d' = tableOf s d') ∧
      entry (s'.setDir d (Pte.user f)) = entry s := by
  have hdir' : tableOf s' d = none := by
    simpa [tableOf, g.dir] using hdir
  have hview : view (s'.setDir d (Pte.user f)) (Function.update own f 1)
      = (view s' (Function.update own f 1)).setDir d (some f) := by
    refine view_setDir hd (Or.inl ⟨rfl, rfl⟩) ?_ ?_
    · intro i
      exact entry_of_none (by rwa [show (d * 1024 + i % 1024) / 1024 = d by omega])
    · rintro t ht i -
      cases ht
      simp [g.table]
  have hgood := g.inv.good.install g.main.1 (by rw [g.same.high]; exact g.main.2) (by simp) hd hdir'
  have hown := own_restore g.own_zero
  refine ⟨⟨?_, g.inv.fixed.setDir (mem_userDirs.mp hd).1⟩, ?_, ?_, ?_⟩
  · rw [← hview] at hgood
    have hset : (view (s'.setDir d (Pte.user f)) (Function.update own f 1)).setOwn f 0
        = view (s'.setDir d (Pte.user f)) own := by
      show View.mk _ _ _ _ = View.mk _ _ _ _
      rw [view_own, hown]
      rfl
    rw [hset] at hgood
    exact hgood
  · have := congrArg (fun V => V.dir d) hview
    simpa using this
  · intro d' hdd
    have := congrArg (fun V => V.dir d') hview
    simp only [view_dir, View.setDir_dir, Function.update_of_ne hdd] at this
    rw [this]
    simp [tableOf, g.dir]
  · have := congrArg View.ent hview
    simp only [view_ent, View.setDir_ent] at this
    rw [this, g.ent]

theorem entry_page {s : Mem} {d t i : Nat} (ht : tableOf s d = some t) (hi : i < 1024) :
    entry s (d * 1024 + i) = s.pageTable t i := by
  rw [entry_of_table ht (by omega)]
  congr 1
  omega

theorem page_mem {d i : Nat} (hd : d ∈ userDirs) (hi : i < 1024) : d * 1024 + i ∈ userPages := by
  rw [mem_userDirs] at hd
  rw [mem_userPages]
  omega

theorem freePage_low {f : Nat} {s : Mem} (hf : f < lowMem) : freePage f s = .ok s := by
  simp [freePage, hf]

theorem freePage_main {f : Nat} {s : Mem} (hf : lowMem ≤ f) (hhigh : f < s.highMemory)
    (hc : s.memMap (mapNr f) ≠ 0) :
    freePage f s = .ok (s.setCount (mapNr f) (s.memMap (mapNr f) - 1)) := by
  simp [freePage, Nat.not_lt.mpr hf, Nat.not_le.mpr hhigh, hc]

theorem toNat_dec {v : UInt8} (h : 0 < v.toNat) : (v - 1).toNat = v.toNat - 1 := by
  rw [UInt8.toNat_sub_of_le]
  · rfl
  · rw [UInt8.le_iff_toNat_le]; exact h

theorem toNat_inc {v : UInt8} (h : v.toNat < 255) : (v + 1).toNat = v.toNat + 1 := by
  rw [UInt8.toNat_add]
  simp
  omega

end Linux011.Mm
