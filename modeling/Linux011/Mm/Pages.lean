import Linux011.Mm.Tables

/-!
# Single pages

The specifications of the fault handlers and of what they are made of. A page fault concerns one
linear page `address / 4096`; every handler either returns with that page changed and all others
showing what they showed, or kills the caller with `oom` and leaves nothing changed.
-/

namespace Linux011.Mm

open Linux011.Lib

variable {lo : Nat} {own : Nat → Nat} {s : Mem} {d t i p f a : Nat}

theorem dirIndex_eq (h : a / 4096 ∈ userPages) : dirIndex a = a / 4096 / 1024 := by
  rw [mem_userPages] at h
  unfold dirIndex
  omega

theorem dir_mem (h : p ∈ userPages) : p / 1024 ∈ userDirs := by
  rw [mem_userPages] at h
  rw [mem_userDirs]
  omega

theorem page_split (p : Nat) : p / 1024 * 1024 + p % 1024 = p := by omega

theorem Got.frame {s' : Mem} (g : Got lo own s f s') (S : Nat → Prop) : Frame S s s' := by
  refine Frame.of_entry g.same (fun _ _ _ => by rw [g.ent]) ?_
  intro q hq _ f' hf'
  have hne : f' ≠ f := fun heq => g.unmapped q hq (heq ▸ hf')
  rw [g.page, Function.update_of_ne hne]

/-! ## Pages with an owner -/

/-- A kernel owner gives its page back. -/
theorem freePage_owned (h : Inv lo own s) (hf : lo ≤ f ∧ f < s.highMemory) (ho : own f = 1) :
    Post (freePage f s)
      (fun s' => Inv lo (Function.update own f 0) s' ∧ Frame (fun _ => False) s s' ∧
        s'.pgDir = s.pgDir ∧ entry s' = entry s ∧ s'.page = s.page)
      (fun _ => False) := by
  have hlow : lowMem ≤ f := Nat.le_trans h.fixed.lo_le hf.1
  have hcnt : 0 < (s.memMap (mapNr f)).toNat := by
    have hc := h.good.count f hf.1 hf.2
    rw [view_cnt hlow, view_own, ho] at hc
    omega
  have hne : s.memMap (mapNr f) ≠ 0 := by
    intro hz
    rw [hz] at hcnt
    exact absurd hcnt (by decide)
  have hgood := h.good.release hf.1 hf.2 ho
  rw [view_cnt hlow, ← toNat_dec hcnt, ← view_setCount hlow] at hgood
  rw [freePage_main hlow hf.2 hne]
  exact Post.ret ⟨⟨hgood, h.fixed.setCount hf.1 hf.2 _⟩, Frame.setCount _ _ _, rfl, rfl, rfl⟩

/-- An owned page is mapped writable at an absent entry. -/
theorem Inv.mapOwned (h : Inv lo own s) (hf : lo ≤ f ∧ f < s.highMemory) (ho : own f = 1)
    (ht : tableOf s d = some t) (hi : i < 1024)
    (habs : (entry s (d * 1024 + i)).target = none) :
    Inv lo (Function.update own f 0) (s.setPte t i (Pte.user f)) ∧
      Frame (· = d * 1024 + i) s (s.setPte t i (Pte.user f)) ∧
      entry (s.setPte t i (Pte.user f)) (d * 1024 + i) = Pte.user f := by
  have hp := page_mem (tableOf_eq_some.mp ht).1 hi
  have hdir : (view s own).dir ((d * 1024 + i) / 1024) ≠ none := by
    show tableOf s _ ≠ none
    rw [show (d * 1024 + i) / 1024 = d by omega, ht]
    exact Option.some_ne_none _
  have hgood := h.good.mapFresh h.fixed.lo_le hf.1 hf.2 ho hp habs hdir
  rw [← view_setPte (table_inj h ht) ht hi] at hgood
  refine ⟨⟨hgood, h.fixed.setPte ?_⟩, Frame.setPte (table_inj h ht) ht hi, ?_⟩
  · exact Nat.le_trans h.fixed.lo_le (table_main h ht).1
  · rw [entry_setPte (table_inj h ht) ht hi, Function.update_self]

theorem putPage_present (h : (s.pgDir (dirIndex a)).present = true) :
    putPage f a s
      = (some f, s.setPte (s.pgDir (dirIndex a)).frame (tableIndex a) (Pte.user f)) := by
  simp [putPage, h]

theorem putPage_table {tmp : Nat} {s' : Mem} (h : (s.pgDir (dirIndex a)).present = false)
    (hget : getFreePage s = (some tmp, s')) :
    putPage f a s = (some f,
      (s'.setDir (dirIndex a) (Pte.user tmp)).setPte tmp (tableIndex a) (Pte.user f)) := by
  simp [putPage, h, hget]

theorem putPage_oom (h : (s.pgDir (dirIndex a)).present = false)
    (hget : getFreePage s = (none, s)) : putPage f a s = (none, s) := by
  simp [putPage, h, hget]

theorem putPage_spec (h : Inv lo own s) (hf : lo ≤ f ∧ f < s.highMemory) (ho : own f = 1)
    (hp : a / 4096 ∈ userPages) (habs : (entry s (a / 4096)).target = none) :
    putPage f a s = (none, s) ∨ ∃ s', putPage f a s = (some f, s') ∧
      Inv lo (Function.update own f 0) s' ∧ Frame (· = a / 4096) s s' ∧
      entry s' (a / 4096) = Pte.user f ∧ s'.page f = s.page f := by
  have hd : dirIndex a ∈ userDirs := by rw [dirIndex_eq hp]; exact dir_mem hp
  have hi : tableIndex a < 1024 := Nat.mod_lt _ (by decide)
  have hsplit : dirIndex a * 1024 + tableIndex a = a / 4096 := by
    rw [dirIndex_eq hp]; exact page_split _
  rw [← hsplit] at habs
  cases hpres : (s.pgDir (dirIndex a)).present with
  | true =>
    have ht := tableOf_eq_some.mpr ⟨hd, hpres, rfl⟩
    obtain ⟨h', hframe, hent⟩ := h.mapOwned hf ho ht hi habs
    rw [hsplit] at hframe hent
    exact Or.inr ⟨_, putPage_present hpres, h', hframe, hent, rfl⟩
  | false =>
    rcases getFreePage_spec h with hget | ⟨tmp, s₁, hget, g⟩
    · exact Or.inl (putPage_oom hpres hget)
    · obtain ⟨h₁, ht, -, hframe₁, -, hempty⟩ := g.newTable hd hpres
      have hhigh : f < (s₁.setDir (dirIndex a) (Pte.user tmp)).highMemory := by
        rw [hframe₁.same.high]
        exact hf.2
      obtain ⟨h', hframe, hent⟩ := h₁.mapOwned ⟨hf.1, hhigh⟩ ho ht hi (hempty _ hi)
      rw [hsplit] at hframe hent
      refine Or.inr ⟨_, putPage_table hpres hget, h', ?_, hent, ?_⟩
      · exact (hframe₁.mono fun _ => False.elim).trans hframe
      · have hne : f ≠ tmp := by
          rintro rfl
          rw [g.own_zero] at ho
          exact absurd ho (by decide)
        show s₁.page f = s.page f
        rw [g.page, Function.update_of_ne hne]

/-! ## Breaking a shared page -/

/-- `un_wp_page` may grant the write permission in place. -/
def sole (s : Mem) (e : Pte) : Prop := lowMem ≤ e.frame ∧ s.memMap (mapNr e.frame) = 1

instance (s : Mem) (e : Pte) : Decidable (sole s e) := inferInstanceAs (Decidable (_ ∧ _))

/-- After `un_wp_page` the entry is writable: in place for the single user of a page, otherwise as a
copy in a page that nobody else maps. The copy comes with a clear dirty bit. -/
structure Unshared (s s' : Mem) (p : Nat) : Prop where
  ent : (sole s (entry s p) ∧ entry s' p = (entry s p).writable) ∨
    (¬ sole s (entry s p) ∧ ∃ f, lowMem ≤ f ∧
      (∀ q ∈ userPages, (entry s q).target ≠ some f) ∧ entry s' p = Pte.user f)
  bytes : s'.page (entry s' p).frame = s.page (entry s p).frame

theorem unWpPage_sole {e : Pte} (he : s.pageTable t i = e) (h : sole s e) :
    unWpPage t i s = .ok (s.setPte t i e.writable) := by
  unfold sole at h
  simp [unWpPage, he, h]

theorem unWpPage_oom {e : Pte} (he : s.pageTable t i = e) (h : ¬ sole s e)
    (hget : getFreePage s = (none, s)) : unWpPage t i s = .error (.oom s) := by
  unfold sole at h
  simp only [unWpPage, he, if_neg h, hget]

/-- The copying branch drops the old reference as `free_page_tables` does and maps the new page. -/
theorem unWpPage_copy {e : Pte} (he : s.pageTable t i = e) (h : ¬ sole s e) {s₁ s₂ : Mem}
    (hget : getFreePage s = (some f, s₁)) (he₁ : s₁.pageTable t i = e) (hpres : e.present = true)
    (hfree : freeEntry t s₁ i = .ok s₂) :
    unWpPage t i s = .ok ((s₂.setPte t i (Pte.user f)).setPage f (s₂.page e.frame)) := by
  obtain ⟨s', hs', rfl⟩ : ∃ s', freePage e.frame s₁ = .ok s' ∧ s₂ = s'.setPte t i Pte.zero := by
    unfold freeEntry at hfree
    simp only [he₁, hpres, if_true] at hfree
    cases hf : freePage e.frame s₁ with
    | error e' => rw [hf] at hfree; cases hfree
    | ok s' =>
      rw [hf] at hfree
      exact ⟨s', rfl, (Except.ok.inj hfree).symm⟩
  have hcount := freePage_ok hs'
  unfold sole at h
  simp only [unWpPage, he, if_neg h, hget, Mem.setPte_setPte, ← hcount]
  rfl

theorem unWpPage_spec (h : Inv lo own s) (ht : tableOf s d = some t) (hi : i < 1024)
    (hpres : (entry s (d * 1024 + i)).present = true) :
    Post (unWpPage t i s)
      (fun s' => Inv lo own s' ∧ Frame (· = d * 1024 + i) s s' ∧ Unshared s s' (d * 1024 + i))
      (fun e => e = .oom s) := by
  have hp : d * 1024 + i ∈ userPages := page_mem (tableOf_eq_some.mp ht).1 hi
  obtain ⟨e, he⟩ : ∃ e, s.pageTable t i = e := ⟨_, rfl⟩
  have hent : entry s (d * 1024 + i) = e := (entry_page ht hi).trans he
  rw [hent] at hpres
  have href : (view s own).ref (d * 1024 + i) = some e.frame := by
    rw [view_ref, hent]
    exact Pte.target_of_present hpres
  have hmain : e.frame < lowMem ∨ lo ≤ e.frame ∧ e.frame < s.highMemory :=
    h.good.ent_frame _ hp _ href
  rcases Decidable.em (sole s e) with hsole | hshared
  · -- the only user of the page: the permission is granted in place
    rw [unWpPage_sole he hsole]
    have hfm : lo ≤ e.frame ∧ e.frame < s.highMemory :=
      hmain.resolve_left (Nat.not_lt.mpr hsole.1)
    have hcnt : (view s own).cnt e.frame = 1 := by
      rw [view_cnt hsole.1, hsole.2]
      rfl
    have htgt : e.writable.target = (view s own).ref (d * 1024 + i) := by
      rw [href]
      exact Pte.target_of_present hpres
    have hgood := h.good.flags h.fixed.lo_le hp htgt
      fun _ => Or.inr ⟨e.frame, href, hfm.1, hfm.2, hcnt⟩
    have hupd := entry_setPte (e := e.writable) (table_inj h ht) ht hi
    refine Post.ret ⟨h.setPte ht hi hgood, Frame.setPte (table_inj h ht) ht hi, ?_, ?_⟩
    · rw [hupd, Function.update_self, hent]
      exact Or.inl ⟨hsole, rfl⟩
    · rw [hupd, Function.update_self, hent]
      rfl
  · rcases getFreePage_spec h with hget | ⟨f, s₁, hget, g⟩
    · rw [unWpPage_oom he hshared hget]
      exact Post.stop rfl
    · -- a copy takes the place of the shared page
      have ht₁ : tableOf s₁ d = some t := by rw [← ht]; simp [tableOf, g.dir]
      have hent₁ : entry s₁ (d * 1024 + i) = e := by rw [g.ent, hent]
      have he₁ : s₁.pageTable t i = e := (entry_page ht₁ hi).symm.trans hent₁
      have hfree := freeEntry_spec g.inv ht₁ hi
      obtain ⟨s₂, hs₂⟩ : ∃ s₂, freeEntry t s₁ i = .ok s₂ := by
        cases hr : freeEntry t s₁ i with
        | ok s₂ => exact ⟨s₂, rfl⟩
        | error e' => exact (hfree.of_error e' hr).elim
      obtain ⟨h₂, hframe₂, hdir₂, hent₂⟩ := hfree.of_ok s₂ hs₂
      have hpage₂ : s₂.page = s₁.page := freeEntry_page hs₂
      rw [unWpPage_copy he hshared hget he₁ hpres hs₂]
      have ht₂ : tableOf s₂ d = some t := by rw [← ht₁]; simp [tableOf, hdir₂]
      have hhigh : f < s₂.highMemory := by
        rw [hframe₂.same.high, g.same.high]
        exact g.main.2
      have habs₂ : (entry s₂ (d * 1024 + i)).target = none := by
        rw [hent₂, Function.update_self]
        rfl
      obtain ⟨h₃, hframe₃, hent₃⟩ := h₂.mapOwned ⟨g.main.1, hhigh⟩ (by simp) ht₂ hi habs₂
      rw [own_restore g.own_zero] at h₃
      have hold : ∀ q ∈ userPages, q ≠ d * 1024 + i →
          (entry (s₂.setPte t i (Pte.user f)) q).target = (entry s q).target := by
        intro q hq hne
        rw [hframe₃.ref hq hne, hframe₂.ref hq hne, g.ent]
      refine Post.ret ⟨⟨h₃.good, h₃.fixed.setPage _⟩, ?_, ?_, ?_⟩
      · -- the new page shows nowhere else, so writing the copy into it is seen at one page only
        refine ((g.frame _).trans (hframe₂.trans hframe₃)).trans
          (Frame.of_entry ⟨rfl, rfl, rfl⟩ (fun _ _ _ => rfl) ?_)
        intro q hq hne f' hf'
        have hne' : f' ≠ f := by
          rintro rfl
          exact g.unmapped q hq ((hold q hq hne).symm.trans hf')
        exact Function.update_of_ne hne' _ _
      · rw [hent]
        exact Or.inr ⟨hshared, f, Nat.le_trans h.fixed.lo_le g.main.1, g.unmapped, hent₃⟩
      · show ((s₂.setPte t i (Pte.user f)).setPage f (s₂.page e.frame)).page
            (entry (s₂.setPte t i (Pte.user f)) (d * 1024 + i)).frame = _
        have hne : e.frame ≠ f := fun heq => g.unmapped _ hp (by rw [← heq]; exact href)
        rw [hent₃, hent]
        show Function.update s₂.page f (s₂.page e.frame) f = _
        rw [Function.update_self, hpage₂, g.page, Function.update_of_ne hne]

/-- The page table a present linear page lies in, as the code computes its address. -/
theorem table_of_present (hp : a / 4096 ∈ userPages)
    (hdir : (s.pgDir (dirIndex a)).present = true) :
    tableOf s (dirIndex a) = some (s.pgDir (dirIndex a)).frame := by
  refine tableOf_eq_some.mpr ⟨?_, hdir, rfl⟩
  rw [dirIndex_eq hp]
  exact dir_mem hp

theorem dir_of_present (hp : a / 4096 ∈ userPages) (hpres : (entry s (a / 4096)).present = true) :
    (s.pgDir (dirIndex a)).present = true := by
  cases hT : tableOf s (dirIndex a) with
  | some t => exact (tableOf_eq_some.mp hT).2.1
  | none =>
    rw [entry_of_none (by rw [← dirIndex_eq hp, hT])] at hpres
    cases hpres

theorem page_eq (hp : a / 4096 ∈ userPages) : dirIndex a * 1024 + tableIndex a = a / 4096 := by
  rw [dirIndex_eq hp]
  exact page_split _

theorem entry_eq (hp : a / 4096 ∈ userPages) (hdir : (s.pgDir (dirIndex a)).present = true) :
    entry s (a / 4096) = s.pageTable (s.pgDir (dirIndex a)).frame (tableIndex a) := by
  rw [← page_eq hp]
  exact entry_page (table_of_present hp hdir) (Nat.mod_lt _ (by decide))

/-- `do_wp_page` for a fault on a present page of user space. -/
theorem doWpPage_spec (h : Inv lo own s) (hp : a / 4096 ∈ userPages)
    (hpres : (entry s (a / 4096)).present = true) :
    Post (doWpPage a s)
      (fun s' => Inv lo own s' ∧ Frame (· = a / 4096) s s' ∧ Unshared s s' (a / 4096))
      (fun e => e = .oom s) := by
  have ht := table_of_present hp (dir_of_present hp hpres)
  rw [← page_eq hp] at hpres ⊢
  exact unWpPage_spec h ht (Nat.mod_lt _ (by decide)) hpres

theorem writeVerify_spec (h : Inv lo own s) (hp : a / 4096 ∈ userPages) :
    Post (writeVerify a s)
      (fun s' => Inv lo own s' ∧ Frame (· = a / 4096) s s' ∧
        ((s' = s ∧ ((entry s (a / 4096)).present = true → (entry s (a / 4096)).rw = true)) ∨
          ((entry s (a / 4096)).present = true ∧ (entry s (a / 4096)).rw = false ∧
            Unshared s s' (a / 4096))))
      (fun e => e = .oom s) := by
  cases hdir : (s.pgDir (dirIndex a)).present with
  | false =>
    have hent : entry s (a / 4096) = Pte.zero := by
      apply entry_of_none
      rw [← dirIndex_eq hp, tableOf_eq_none (by rw [dirIndex_eq hp]; exact dir_mem hp)]
      exact hdir
    simp only [writeVerify, hdir]
    refine Post.ret ⟨h, Frame.refl _ s, Or.inl ⟨rfl, ?_⟩⟩
    rw [hent]
    simp [Pte.zero]
  | true =>
    have hent := entry_eq hp hdir
    have ht := table_of_present hp hdir
    simp only [writeVerify, hdir, if_true]
    rw [← hent]
    split
    · next hro =>
      rw [← page_eq hp] at hro ⊢
      refine (unWpPage_spec h ht (Nat.mod_lt _ (by decide)) hro.1).imp ?_
      rintro s' ⟨h', hframe, hun⟩
      exact ⟨h', hframe, Or.inr ⟨hro.1, by simpa using hro.2, hun⟩⟩
    · next hro =>
      refine Post.ret ⟨h, Frame.refl _ s, Or.inl ⟨rfl, fun hpres => ?_⟩⟩
      by_contra hrw
      exact hro ⟨hpres, hrw⟩

/-- The kernel's own pages are all writable, so `write_verify` passes over them. -/
theorem writeVerify_kernel (h : Inv lo own s) (hd : dirIndex a < 16) : writeVerify a s = .ok s := by
  have hrw := h.fixed.kernel_rw _ hd (tableIndex a)
  unfold writeVerify
  simp only
  split
  · rw [if_neg]
    rintro ⟨hpres, hro⟩
    exact hro (hrw hpres)
  · rfl

/-! ## New pages -/

/-- A fresh page at `p`: nobody else maps it. -/
def Fresh (s s' : Mem) (p : Nat) (bytes : Nat → UInt8) : Prop :=
  ∃ f, lowMem ≤ f ∧ (∀ q ∈ userPages, (entry s q).target ≠ some f) ∧
    entry s' p = Pte.user f ∧ s'.page f = bytes

/-- The common end of `get_empty_page` and of the slow path of `do_no_page`: a page just taken and
filled is put at `a`, or given back. -/
theorem putNew_spec {s₁ : Mem} (bytes : Nat → UInt8) (g : Got lo own s f s₁)
    (hp : a / 4096 ∈ userPages) (habs : (entry s (a / 4096)).target = none) :
    (∃ s', putPage f a (s₁.setPage f bytes) = (some f, s') ∧ Inv lo own s' ∧
        Frame (· = a / 4096) s s' ∧ Fresh s s' (a / 4096) bytes) ∨
      (putPage f a (s₁.setPage f bytes) = (none, s₁.setPage f bytes) ∧
        Post (freePage f (s₁.setPage f bytes)) (fun s' => Inv lo own s' ∧ Frame (fun _ => False) s s')
          (fun _ => False)) := by
  have h₁ : Inv lo (Function.update own f 1) (s₁.setPage f bytes) :=
    ⟨g.inv.good, g.inv.fixed.setPage _⟩
  have hmain : lo ≤ f ∧ f < (s₁.setPage f bytes).highMemory := by
    rw [show (s₁.setPage f bytes).highMemory = s.highMemory from g.same.high]
    exact g.main
  have hframe : ∀ S, Frame S s (s₁.setPage f bytes) := by
    intro S
    refine (g.frame S).trans (Frame.of_entry ⟨rfl, rfl, rfl⟩ (fun _ _ _ => rfl) ?_)
    intro q hq _ f' hf'
    have hne : f' ≠ f := by
      rintro rfl
      rw [g.ent] at hf'
      exact g.unmapped q hq hf'
    exact Function.update_of_ne hne _ _
  have habs₁ : (entry (s₁.setPage f bytes) (a / 4096)).target = none := by
    rw [show entry (s₁.setPage f bytes) = entry s from g.ent, habs]
  rcases putPage_spec h₁ hmain (by simp) hp habs₁ with hput | ⟨s', hput, h', hframe', hent, hpage⟩
  · refine Or.inr ⟨hput, (freePage_owned h₁ hmain (by simp)).imp ?_⟩
    rintro s' ⟨h', hframe', -⟩
    rw [own_restore g.own_zero] at h'
    exact ⟨h', (hframe _).trans hframe'⟩
  · rw [own_restore g.own_zero] at h'
    refine Or.inl ⟨s', hput, h', (hframe _).trans hframe', f, ?_, g.unmapped, hent, ?_⟩
    · exact Nat.le_trans h'.fixed.lo_le g.main.1
    · rw [hpage]
      exact Function.update_self ..

theorem getEmptyPage_spec (h : Inv lo own s) (hp : a / 4096 ∈ userPages)
    (habs : (entry s (a / 4096)).target = none) :
    Post (getEmptyPage a s)
      (fun s' => Inv lo own s' ∧ Frame (· = a / 4096) s s' ∧ Fresh s s' (a / 4096) (fun _ => 0))
      (fun e => ∃ s', e = .oom s' ∧ Inv lo own s' ∧ Frame (fun _ => False) s s') := by
  rcases getFreePage_spec h with hget | ⟨f, s₁, hget, g⟩
  · simp only [getEmptyPage, hget]
    exact Post.stop ⟨s, rfl, h, Frame.refl _ s⟩
  · -- the page comes cleared
    have hclear : s₁.setPage f (fun _ => 0) = s₁ := by
      simp only [Mem.setPage, g.page, Function.update_idem]
      rw [← g.page]
    rcases putNew_spec (fun _ => 0) g hp habs with ⟨s', hput, h', hframe, hfresh⟩ | ⟨hput, hfree⟩
    · rw [hclear] at hput
      simp only [getEmptyPage, hget, hput]
      exact Post.ret ⟨h', hframe, hfresh⟩
    · rw [hclear] at hput hfree
      simp only [getEmptyPage, hget, hput]
      refine Post.bind (hfree.mono (fun _ hs => hs) (fun _ hf => hf.elim)) ?_
      rintro s' ⟨h', hframe⟩
      exact Post.stop ⟨s', rfl, h', hframe⟩

end Linux011.Mm
