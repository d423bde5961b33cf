import Linux011.Mm.Invariant

/-!
# Freeing and copying whole page tables

Every specification here has the same shape: from `Inv` the function does not panic, returns a state
with `Inv`, and changes the entries and contents of the linear pages it is about and of no others
(`Frame`). A write permission may be withdrawn anywhere.
-/

namespace Linux011.Mm

open Linux011.Lib

variable {lo : Nat} {own : Nat → Nat} {s : Mem} {d t i p f : Nat}

/-- What a change confined to the linear pages of `S` leaves of the state. -/
structure Frame (S : Nat → Prop) (s s' : Mem) : Prop where
  same : Same s s'
  ent : ∀ p ∈ userPages, ¬ S p → entry s' p = entry s p ∨ entry s' p = (entry s p).readOnly
  seen : ∀ p ∈ userPages, ¬ S p → seen s' p = seen s p

theorem Pte.readOnly_readOnly (e : Pte) : e.readOnly.readOnly = e.readOnly := rfl

namespace Frame

variable {S S' : Nat → Prop} {s s' s'' : Mem}

theorem refl (S : Nat → Prop) (s : Mem) : Frame S s s :=
  ⟨Same.refl s, fun _ _ _ => Or.inl rfl, fun _ _ _ => rfl⟩

theorem trans (h : Frame S s s') (h' : Frame S s' s'') : Frame S s s'' := by
  refine ⟨h.same.trans h'.same, ?_, fun p hp hS => (h'.seen p hp hS).trans (h.seen p hp hS)⟩
  intro p hp hS
  rcases h.ent p hp hS with h1 | h1 <;> rcases h'.ent p hp hS with h2 | h2
  · exact Or.inl (h2.trans h1)
  · exact Or.inr (by rw [h2, h1])
  · exact Or.inr (h2.trans h1)
  · exact Or.inr (by rw [h2, h1, Pte.readOnly_readOnly])

theorem mono (h : Frame S s s') (hS : ∀ p, S p → S' p) : Frame S' s s' :=
  ⟨h.same, fun p hp hp' => h.ent p hp fun hSp => hp' (hS p hSp),
    fun p hp hp' => h.seen p hp fun hSp => hp' (hS p hSp)⟩

/-- A frame outside which every entry is as before and no mapped page is written. -/
theorem of_entry (hsame : Same s s') (hent : ∀ p ∈ userPages, ¬ S p → entry s' p = entry s p)
    (hpage : ∀ p ∈ userPages, ¬ S p → ∀ f, (entry s p).target = some f → s'.page f = s.page f) :
    Frame S s s' := by
  refine ⟨hsame, fun p hp hS => Or.inl (hent p hp hS), fun p hp hS => ?_⟩
  have he := hent p hp hS
  exact seen_congr (by rw [he]) (by rw [he]) (hpage p hp hS)

/-- The reference a page holds survives a change that is not about it. -/
theorem ref (h : Frame S s s') (hp : p ∈ userPages) (hS : ¬ S p) :
    (entry s' p).target = (entry s p).target := by
  rcases h.ent p hp hS with he | he <;> rw [he]
  rfl

end Frame

/-- An update of one entry, given as `Good` for the updated view. -/
theorem Inv.setPte {e : Pte} (h : Inv lo own s) (ht : tableOf s d = some t) (hi : i < 1024)
    (hg : Good lo s.highMemory ((view s own).setEnt (d * 1024 + i) e)) :
    Inv lo own (s.setPte t i e) := by
  have hlo := h.fixed.lo_le
  have hmain := table_main h ht
  refine ⟨?_, h.fixed.setPte (by omega)⟩
  rw [view_setPte (table_inj h ht) ht hi]
  exact hg

/-- Writing one entry changes that entry and the page seen through it. -/
theorem Frame.setPte {e : Pte} (hinj : ∀ d', tableOf s d' = some t → d' = d)
    (ht : tableOf s d = some t) (hi : i < 1024) :
    Frame (· = d * 1024 + i) s (s.setPte t i e) := by
  refine Frame.of_entry ⟨rfl, rfl, rfl⟩ ?_ (fun _ _ _ _ _ => rfl)
  intro p _ hp
  rw [entry_setPte hinj ht hi, Function.update_of_ne hp]

theorem Frame.setCount (S : Nat → Prop) (nr : Nat) (v : UInt8) : Frame S s (s.setCount nr v) :=
  Frame.of_entry ⟨rfl, rfl, rfl⟩ (fun _ _ _ => rfl) (fun _ _ _ _ _ => rfl)

/-! ## Freeing -/

theorem freeEntry_absent (h : (s.pageTable t i).present = false) :
    freeEntry t s i = .ok (s.setPte t i Pte.zero) := by
  unfold freeEntry
  simp only [h]
  rfl

theorem freeEntry_present {s' : Mem} (h : (s.pageTable t i).present = true)
    (hfree : freePage (s.pageTable t i).frame s = .ok s') :
    freeEntry t s i = .ok (s'.setPte t i Pte.zero) := by
  unfold freeEntry
  simp only [h, hfree]
  rfl

/-- `free_page` either leaves the counters alone or takes one off. -/
theorem freePage_ok {s' : Mem} (h : freePage f s = .ok s') :
    s' = if lowMem ≤ f then s.setCount (mapNr f) (s.memMap (mapNr f) - 1) else s := by
  unfold freePage at h
  split at h
  · next hlow =>
    rw [if_neg (Nat.not_le.mpr hlow)]
    exact (Except.ok.inj h).symm
  · next hlow =>
    rw [if_pos (Nat.not_lt.mp hlow)]
    split at h
    · cases h
    · split at h
      · exact (Except.ok.inj h).symm
      · cases h

theorem freePage_page {s' : Mem} (h : freePage f s = .ok s') : s'.page = s.page := by
  rw [freePage_ok h]
  split <;> rfl

theorem freePage_table {s' : Mem} (h : freePage f s = .ok s') : s'.pageTable = s.pageTable := by
  rw [freePage_ok h]
  split <;> rfl

/-- `free_page_tables` gives the page of a present entry back, and then clears the entry. -/
theorem freeEntry_ok {s' : Mem} (h : freeEntry t s i = .ok s') : ∃ s₁, s' = s₁.setPte t i Pte.zero ∧
    (s₁ = s ∨ ((s.pageTable t i).present = true ∧ freePage (s.pageTable t i).frame s = .ok s₁)) := by
  cases hpres : (s.pageTable t i).present with
  | false =>
    rw [freeEntry_absent hpres] at h
    cases h
    exact ⟨s, rfl, Or.inl rfl⟩
  | true =>
    cases hf : freePage (s.pageTable t i).frame s with
    | error e =>
      simp only [freeEntry, hpres, hf, if_true] at h
      cases h
    | ok s₁ =>
      rw [freeEntry_present hpres hf] at h
      cases h
      exact ⟨s₁, rfl, Or.inr ⟨rfl, rfl⟩⟩

theorem freeEntry_page {s' : Mem} (h : freeEntry t s i = .ok s') : s'.page = s.page := by
  obtain ⟨s₁, rfl, hs₁⟩ := freeEntry_ok h
  show s₁.page = s.page
  rcases hs₁ with rfl | ⟨-, hf⟩
  · rfl
  · exact freePage_page hf

/-- No other entry is written. -/
theorem freeEntry_table {s' : Mem} (h : freeEntry t s i = .ok s') :
    s'.pageTable = Function.update s.pageTable t (Function.update (s.pageTable t) i Pte.zero) := by
  obtain ⟨s₁, rfl, hs₁⟩ := freeEntry_ok h
  have htable : s₁.pageTable = s.pageTable := by
    rcases hs₁ with rfl | ⟨-, hf⟩
    · rfl
    · exact freePage_table hf
  show Function.update s₁.pageTable t _ = _
  rw [htable]

theorem freeEntry_spec (h : Inv lo own s) (ht : tableOf s d = some t) (hi : i < 1024) :
    Post (freeEntry t s i)
      (fun s' => Inv lo own s' ∧ Frame (· = d * 1024 + i) s s' ∧ s'.pgDir = s.pgDir ∧
        entry s' = Function.update (entry s) (d * 1024 + i) Pte.zero)
      (fun _ => False) := by
  have hd : d ∈ userDirs := (tableOf_eq_some.mp ht).1
  have hp : d * 1024 + i ∈ userPages := page_mem hd hi
  have hent : entry s (d * 1024 + i) = s.pageTable t i := entry_page ht hi
  have hlo := h.fixed.lo_le
  have hmain := table_main h ht
  have hinj := table_inj h ht
  cases hpres : (s.pageTable t i).present with
  | false =>
    -- an absent entry is only zeroed
    rw [freeEntry_absent hpres]
    have href : (view s own).ref (d * 1024 + i) = none := by
      rw [view_ref, hent]; exact Pte.target_of_absent hpres
    have hgood := h.good.flags hlo hp (e := Pte.zero) href.symm (by simp [Pte.zero])
    exact Post.ret ⟨h.setPte ht hi hgood, Frame.setPte hinj ht hi, rfl, entry_setPte hinj ht hi⟩
  | true =>
    have href : (view s own).ref (d * 1024 + i) = some (s.pageTable t i).frame := by
      rw [view_ref, hent]; exact Pte.target_of_present hpres
    have hgood := h.good.unmap hlo hp href
    rcases h.good.ent_frame _ hp _ href with hlow | ⟨h1, h2⟩
    · -- a page below `LOW_MEM` is not counted
      rw [if_neg (by omega)] at hgood
      have hset : (view s own).setCnt (s.pageTable t i).frame
          ((view s own).cnt (s.pageTable t i).frame) = view s own := by
        show View.mk _ _ _ _ = _
        rw [Function.update_eq_self]
      rw [hset] at hgood
      rw [freeEntry_present hpres (freePage_low hlow)]
      exact Post.ret ⟨h.setPte ht hi hgood, Frame.setPte hinj ht hi, rfl, entry_setPte hinj ht hi⟩
    · have hf : lowMem ≤ (s.pageTable t i).frame := by omega
      have hpos := h.good.cnt_pos_of_ref hp href h1 h2
      rw [view_cnt hf] at hpos
      have hne : s.memMap (mapNr (s.pageTable t i).frame) ≠ 0 := by
        intro hz; rw [hz] at hpos; exact absurd hpos (by decide)
      rw [if_pos hf, view_cnt hf, ← toNat_dec hpos, ← view_setCount hf] at hgood
      rw [freeEntry_present hpres (freePage_main hf h2 hne)]
      obtain ⟨c, hc⟩ : ∃ c, s.memMap (mapNr (s.pageTable t i).frame) - 1 = c := ⟨_, rfl⟩
      rw [hc] at hgood ⊢
      have hview : view ((s.setCount (mapNr (s.pageTable t i).frame) c).setPte t i Pte.zero) own
          = (view (s.setCount (mapNr (s.pageTable t i).frame) c) own).setEnt (d * 1024 + i)
            Pte.zero := view_setPte hinj ht hi
      rw [← hview] at hgood
      exact Post.ret ⟨⟨hgood, (h.fixed.setCount h1 h2 _).setPte (by omega)⟩,
        (Frame.setCount _ _ _).trans (Frame.setPte (s := s.setCount _ _) hinj ht hi), rfl,
        entry_setPte (s := s.setCount _ _) hinj ht hi⟩

theorem seen_of_zero (h : entry s p = Pte.zero) : seen s p = none := by
  simp [seen, h]

/-- The inner loop of `free_page_tables` empties one table. -/
theorem freeTable_spec (h : Inv lo own s) (ht : tableOf s d = some t) :
    Post (freeTable t s)
      (fun s' => Inv lo own s' ∧ Frame (· / 1024 = d) s s' ∧ s'.pgDir = s.pgDir ∧
        ∀ i < 1024, entry s' (d * 1024 + i) = Pte.zero)
      (fun _ => False) := by
  -- what is left of the loop, and the entries already passed
  let I : List Nat → Mem → Prop := fun cs s' =>
    (∀ c ∈ cs, c < 1024) ∧ Inv lo own s' ∧ Frame (· / 1024 = d) s s' ∧ s'.pgDir = s.pgDir ∧
      ∀ i < 1024, i ∉ cs → entry s' (d * 1024 + i) = Pte.zero
  have hstep : ∀ c cs s₁, I (c :: cs) s₁ → Post (freeEntry t s₁ c) (I cs) (fun _ => False) := by
    rintro c cs s₁ ⟨hcs, h₁, hframe, hdir, hzero⟩
    have hc : c < 1024 := hcs c List.mem_cons_self
    have ht₁ : tableOf s₁ d = some t := by
      rw [← ht]; simp [tableOf, hdir]
    refine (freeEntry_spec h₁ ht₁ hc).imp ?_
    rintro s₂ ⟨h₂, hframe₂, hdir₂, hent⟩
    refine ⟨fun c' hc' => hcs c' (List.mem_cons_of_mem _ hc'), h₂, hframe.trans (hframe₂.mono ?_),
      hdir₂.trans hdir, ?_⟩
    · rintro q rfl
      omega
    · intro i hi hics
      rw [hent]
      by_cases hic : i = c
      · rw [hic, Function.update_self]
      · rw [Function.update_of_ne (by omega)]
        exact hzero i hi (by simp [hic, hics])
  unfold freeTable
  have hall : ∀ i < 1024, i ∈ List.range 1024 := fun i hi => List.mem_range.mpr hi
  have hlt : ∀ i ∈ List.range 1024, i < 1024 := fun i hi => List.mem_range.mp hi
  generalize List.range 1024 = L at *
  have hloop := Post.foldlM hstep L s
    ⟨hlt, h, Frame.refl _ s, rfl, fun i hi hnot => absurd (hall i hi) hnot⟩
  refine hloop.imp ?_
  rintro s' ⟨-, h', hframe, hdir, hzero⟩
  exact ⟨h', hframe, hdir, fun i hi => hzero i hi (by simp)⟩

theorem freeDirs_present {n : Nat} (h : (s.pgDir d).present = true) :
    freeDirs (n + 1) d s = freeTable (s.pgDir d).frame s >>= fun s' =>
      freePage (s.pgDir d).frame s' >>= fun s' => freeDirs n (d + 1) (s'.setDir d Pte.zero) := by
  rw [freeDirs, if_pos h]

theorem freeDirs_absent {n : Nat} (h : (s.pgDir d).present = false) :
    freeDirs (n + 1) d s = freeDirs n (d + 1) s := by
  rw [freeDirs, if_neg (by simp [h])]

/-- One round of the outer loop of `free_page_tables`. -/
theorem dropTable (h : Inv lo own s) (ht : tableOf s d = some t) :
    Post (freeTable t s >>= fun s' => freePage t s')
      (fun s' => Inv lo own (s'.setDir d Pte.zero) ∧ Frame (· / 1024 = d) s (s'.setDir d Pte.zero) ∧
        (s'.setDir d Pte.zero).pgDir = Function.update s.pgDir d Pte.zero)
      (fun _ => False) := by
  obtain ⟨hdu, -, -⟩ := tableOf_eq_some.mp ht
  refine Post.bind (freeTable_spec h ht) ?_
  rintro s₁ ⟨h₁, hframe₁, hdir₁, hzero⟩
  have ht₁ : tableOf s₁ d = some t := by
    rw [← ht]; simp [tableOf, hdir₁]
  obtain ⟨hm1, hm2⟩ := table_main h₁ ht₁
  have hlo := h₁.fixed.lo_le
  have hcnt : 0 < (s₁.memMap (mapNr t)).toNat := by
    rw [← show (view s₁ own).cnt t = _ from view_cnt (by omega)]
    have hpos : 0 < (view s₁ own).dirRefs t := refs_pos_iff.mpr ⟨d, hdu, ht₁⟩
    have := h₁.good.count t hm1 hm2
    omega
  have hne : s₁.memMap (mapNr t) ≠ 0 := by
    intro hz; rw [hz] at hcnt; exact absurd hcnt (by decide)
  rw [freePage_main (by omega) hm2 hne]
  have hgood := h₁.good.dropDir hdu ht₁ (by
    intro p hp hpd
    have hz := hzero (p % 1024) (Nat.mod_lt _ (by decide))
    rw [show d * 1024 + p % 1024 = p by omega] at hz
    rw [view_ref, hz]; rfl)
  rw [view_cnt (by omega), ← toNat_dec hcnt, ← view_setCount (by omega)] at hgood
  have hview : view ((s₁.setCount (mapNr t) (s₁.memMap (mapNr t) - 1)).setDir d Pte.zero) own
      = (view (s₁.setCount (mapNr t) (s₁.memMap (mapNr t) - 1)) own).setDir d none :=
    view_setDir hdu (Or.inr ⟨rfl, rfl⟩)
      (fun i => hzero (i % 1024) (Nat.mod_lt _ (by decide))) (by simp)
  rw [← hview] at hgood
  have hent₂ : entry ((s₁.setCount (mapNr t) (s₁.memMap (mapNr t) - 1)).setDir d Pte.zero)
      = entry s₁ := congrArg View.ent hview
  refine Post.ret ⟨⟨hgood, (h₁.fixed.setCount hm1 hm2 _).setDir (mem_userDirs.mp hdu).1⟩, ?_, ?_⟩
  · refine hframe₁.trans (Frame.of_entry ⟨rfl, rfl, rfl⟩ ?_ ?_)
    · exact fun p _ _ => by rw [hent₂]
    · exact fun _ _ _ _ _ => rfl
  · rw [← hdir₁]
    rfl

/-- The outer loop of `free_page_tables` empties `n` directory slots. -/
theorem freeDirs_spec : ∀ (n d : Nat) (s : Mem), Inv lo own s → 16 ≤ d → d + n ≤ 1024 →
    Post (freeDirs n d s)
      (fun s' => Inv lo own s' ∧ Frame (fun p => d ≤ p / 1024 ∧ p / 1024 < d + n) s s' ∧
        (∀ d', d ≤ d' → d' < d + n → tableOf s' d' = none) ∧
        (∀ d', ¬ (d ≤ d' ∧ d' < d + n) → s'.pgDir d' = s.pgDir d'))
      (fun _ => False)
  | 0, d, s, h, _, _ => by
    refine Post.ret ⟨h, Frame.refl _ s, ?_, fun _ _ => rfl⟩
    intro d' h1 h2
    omega
  | n + 1, d, s, h, hd, hn => by
    have hdu : d ∈ userDirs := mem_userDirs.mpr ⟨hd, by omega⟩
    cases hpres : (s.pgDir d).present with
    | true =>
      rw [freeDirs_present hpres]
      have ht : tableOf s d = some (s.pgDir d).frame := tableOf_eq_some.mpr ⟨hdu, hpres, rfl⟩
      rw [← bind_assoc]
      refine Post.bind (dropTable h ht) ?_
      rintro s₁ ⟨h₂, hstep, hdir₂⟩
      refine (freeDirs_spec n (d + 1) _ h₂ (by omega) (by omega)).imp ?_
      rintro s₃ ⟨h₃, hframe₃, hnone, hkeep⟩
      refine ⟨h₃, (hstep.mono fun p hp => by omega).trans (hframe₃.mono fun p hp => by omega), ?_, ?_⟩
      · intro d' h1 h2
        by_cases hdd : d' = d
        · subst hdd
          rw [tableOf_eq_none hdu, hkeep d' (by omega), hdir₂, Function.update_self]
          rfl
        · exact hnone d' (by omega) (by omega)
      · intro d' hout
        rw [hkeep d' (by omega), hdir₂, Function.update_of_ne (by omega)]
    | false =>
      rw [freeDirs_absent hpres]
      refine (freeDirs_spec n (d + 1) s h (by omega) (by omega)).imp ?_
      rintro s₃ ⟨h₃, hframe₃, hnone, hkeep⟩
      refine ⟨h₃, hframe₃.mono fun p hp => by omega, ?_, fun d' hout => hkeep d' (by omega)⟩
      intro d' h1 h2
      by_cases hdd : d' = d
      · subst hdd
        rw [tableOf_eq_none hdu, hkeep d' (by omega)]
        exact hpres
      · exact hnone d' (by omega) (by omega)

/-! ## Copying -/

/-- The linear page `q` of `s'` shows what `p` showed in `s`, through the same physical page. -/
structure Copied (s s' : Mem) (p q : Nat) : Prop where
  target : (entry s' q).target = (entry s p).target
  seen : Mm.seen s' q = Mm.seen s p

theorem Copied.of_absent {s' : Mem} {q : Nat} (hp : (entry s p).target = none)
    (hq : (entry s' q).target = none) : Copied s s' p q :=
  ⟨hq.trans hp.symm, by simp [Mm.seen, hp, hq]⟩

/-- A copy outlasts changes made elsewhere, before and after it was taken. -/
theorem Copied.frame {S S' : Nat → Prop} {s₁ s₂ s₃ : Mem} {q : Nat} (h : Copied s₁ s₂ p q)
    (h₁ : Frame S s s₁) (h₂ : Frame S' s₂ s₃) (hp : p ∈ userPages) (hq : q ∈ userPages)
    (hSp : ¬ S p) (hSq : ¬ S' q) : Copied s s₃ p q := by
  constructor
  · rw [h₂.ref hq hSq, h.target, h₁.ref hp hSp]
  · rw [h₂.seen q hq hSq, h.seen, h₁.seen p hp hSp]

section entries
variable {tF tT dF dT : Nat}

theorem copyEntry_absent (h : (s.pageTable tF i).present = false) : copyEntry tF tT s i = s := by
  simp [copyEntry, h]

theorem copyEntry_low (h : (s.pageTable tF i).present = true)
    (hlow : (s.pageTable tF i).frame < lowMem) :
    copyEntry tF tT s i = s.setPte tT i (s.pageTable tF i).readOnly := by
  have hf : ¬ lowMem ≤ (s.pageTable tF i).readOnly.frame := by
    show ¬ lowMem ≤ (s.pageTable tF i).frame
    omega
  simp only [copyEntry, h, if_true, if_neg hf]

theorem copyEntry_main {e : Pte} (he : s.pageTable tF i = e) (h : e.present = true)
    (hf : lowMem ≤ e.frame) (htt : tF ≠ tT) :
    copyEntry tF tT s i = ((s.setPte tF i e.readOnly).setPte tT i e.readOnly).setCount
      (mapNr e.frame) (s.memMap (mapNr e.frame) + 1) := by
  have hf' : lowMem ≤ e.readOnly.frame := hf
  simp only [copyEntry, he, h, if_true, if_pos hf', Mem.setPte_comm htt]
  rfl

/-- Withdrawing a write permission is seen by nobody. -/
theorem Inv.protect (h : Inv lo own s) (hF : tableOf s dF = some tF) (hi : i < 1024) {e : Pte}
    (he : s.pageTable tF i = e) :
    Inv lo own (s.setPte tF i e.readOnly) ∧ Frame (fun _ => False) s (s.setPte tF i e.readOnly) := by
  have hp : dF * 1024 + i ∈ userPages := page_mem (tableOf_eq_some.mp hF).1 hi
  have hent : entry s (dF * 1024 + i) = e := (entry_page hF hi).trans he
  have hupd := entry_setPte (e := e.readOnly) (table_inj h hF) hF hi
  have hcase : ∀ r, entry (s.setPte tF i e.readOnly) r = entry s r ∨
      entry (s.setPte tF i e.readOnly) r = (entry s r).readOnly := by
    intro r
    rw [hupd]
    rcases eq_or_ne r (dF * 1024 + i) with rfl | hrp
    · right; rw [Function.update_self, hent]
    · left; rw [Function.update_of_ne hrp]
  constructor
  · refine h.setPte hF hi (h.good.flags h.fixed.lo_le hp ?_ (by simp [Pte.readOnly]))
    rw [view_ref, hent]
    rfl
  · refine ⟨⟨rfl, rfl, rfl⟩, fun r _ _ => hcase r, fun r _ _ => ?_⟩
    rcases hcase r with hr | hr
    · exact seen_congr (by rw [hr]) (by rw [hr]) (fun _ _ => rfl)
    · exact seen_congr (by rw [hr]; rfl) (by rw [hr]; rfl) (fun _ _ => rfl)

/-- What `copy_page_tables` and `try_to_share` do with a page of main memory: write-protect it where
it is, map it read-only at the same offset of another task, and count it once more. -/
theorem Inv.share (h : Inv lo own s) (hF : tableOf s dF = some tF) (hT : tableOf s dT = some tT)
    (hne : dF ≠ dT) (hoff : dF % 16 = dT % 16) (hi : i < 1024)
    (habs : (entry s (dT * 1024 + i)).target = none) {e : Pte} (he : s.pageTable tF i = e)
    (hpres : e.present = true) (hf : lowMem ≤ e.frame) {s' : Mem}
    (hs' : s' = ((s.setPte tF i e.readOnly).setPte tT i e.readOnly).setCount
      (mapNr e.frame) (s.memMap (mapNr e.frame) + 1)) :
    Inv lo own s' ∧ Frame (· = dT * 1024 + i) s s' ∧ s'.pgDir = s.pgDir ∧
      Copied s s' (dF * 1024 + i) (dT * 1024 + i) := by
  have hp : dF * 1024 + i ∈ userPages := page_mem (tableOf_eq_some.mp hF).1 hi
  have hq : dT * 1024 + i ∈ userPages := page_mem (tableOf_eq_some.mp hT).1 hi
  have hpq : dT * 1024 + i ≠ dF * 1024 + i := by omega
  have hent : entry s (dF * 1024 + i) = e := (entry_page hF hi).trans he
  have hlo := h.fixed.lo_le
  have htgt : e.readOnly.target = some e.frame := Pte.target_of_present hpres
  -- `s₁`: the page is write-protected where it is
  obtain ⟨h₁, hframe₁⟩ := h.protect hF hi he
  have hent₁ := entry_setPte (e := e.readOnly) (table_inj h hF) hF hi
  have hT₁ : tableOf (s.setPte tF i e.readOnly) dT = some tT := hT
  obtain ⟨s₁, hs₁⟩ : ∃ s₁, s.setPte tF i e.readOnly = s₁ := ⟨_, rfl⟩
  have hdir₁ : s₁.pgDir = s.pgDir := by subst hs₁; rfl
  have hmap₁ : s₁.memMap = s.memMap := by subst hs₁; rfl
  have hpage₁ : s₁.page = s.page := by subst hs₁; rfl
  rw [hs₁] at h₁ hframe₁ hent₁ hT₁ hs'
  have href₁ : (view s₁ own).ref (dF * 1024 + i) = some e.frame := by
    rw [view_ref, hent₁, Function.update_self, htgt]
  have hmain : lo ≤ e.frame ∧ e.frame < s₁.highMemory := by
    rcases h₁.good.ent_frame _ hp _ href₁ with hlow | hmain
    · omega
    · exact hmain
  have hprot : ∀ r ∈ userPages, (view s₁ own).ref r = some e.frame → ((view s₁ own).ent r).rw = false := by
    intro r hr hrf
    rcases eq_or_ne r (dF * 1024 + i) with rfl | hrp
    · rw [view_ent, hent₁, Function.update_self]; rfl
    · exact h₁.good.shared_ro r hr _ hp _ hrf href₁ hf hrp
  have habs₁ : (view s₁ own).ref (dT * 1024 + i) = none := by
    rw [view_ref, hent₁, Function.update_of_ne hpq, habs]
  have hdir : (view s₁ own).dir ((dT * 1024 + i) / 1024) ≠ none := by
    show tableOf s₁ _ ≠ none
    rw [show (dT * 1024 + i) / 1024 = dT by omega, hT₁]
    exact Option.some_ne_none _
  have hgood := h₁.good.attach hlo hp hq href₁ hmain.1 hmain.2 hprot habs₁ hdir (by omega) htgt rfl
  -- the counter has room: a page is mapped by at most 64 tasks
  have hcnt : (s.memMap (mapNr e.frame)).toNat ≤ 64 := by
    rw [← hmap₁, ← show (view s₁ own).cnt e.frame = _ from view_cnt hf]
    exact h₁.good.cnt_le hlo hmain.1 hmain.2
  have hview : view s' own = ((view s₁ own).setEnt (dT * 1024 + i) e.readOnly).setCnt e.frame
      ((view s₁ own).cnt e.frame + 1) := by
    rw [hs', view_setCount hf, view_setPte (table_inj h₁ hT₁) hT₁ hi, toNat_inc (by omega),
      view_cnt hf, hmap₁]
  have hframe₂ := Frame.setPte (e := e.readOnly) (table_inj h₁ hT₁) hT₁ hi
  have hent₂ : entry s' (dT * 1024 + i) = e.readOnly := by
    rw [hs']
    show entry (s₁.setPte tT i e.readOnly) _ = _
    rw [entry_setPte (table_inj h₁ hT₁) hT₁ hi, Function.update_self]
  refine ⟨⟨?_, ?_⟩, ?_, ?_, ?_⟩
  · rw [hview, show s'.highMemory = s₁.highMemory by rw [hs']; rfl]
    exact hgood
  · have hm := table_main h₁ hT₁
    rw [hs']
    exact (h₁.fixed.setPte (by omega)).setCount hmain.1 hmain.2 _
  · rw [hs']
    exact ((hframe₁.mono fun _ => False.elim).trans hframe₂).trans (Frame.setCount _ _ _)
  · rw [hs', ← hdir₁]; rfl
  · constructor
    · rw [hent₂, hent]; rfl
    · have hpage' : s'.page = s₁.page := by rw [hs']; rfl
      apply seen_congr
      · rw [hent₂, hent]; rfl
      · rw [hent₂, hent]; rfl
      · intro g _
        rw [hpage', hpage₁]

/-- A present entry below `LOW_MEM` is copied without being counted. -/
theorem Inv.attachLow (h : Inv lo own s) (hT : tableOf s dT = some tT) (hi : i < 1024)
    (habs : (entry s (dT * 1024 + i)).target = none) {e : Pte} (hpres : e.present = true)
    (hlow : e.frame < lowMem) : Inv lo own (s.setPte tT i e.readOnly) := by
  have hq := page_mem (tableOf_eq_some.mp hT).1 hi
  refine h.setPte hT hi (h.good.attachLow h.fixed.lo_le hq habs ?_ (f := e.frame) ?_ hlow rfl)
  · show tableOf s ((dT * 1024 + i) / 1024) ≠ none
    rw [show (dT * 1024 + i) / 1024 = dT by omega, hT]
    exact Option.some_ne_none _
  · exact Pte.target_of_present hpres

theorem copyEntry_spec (h : Inv lo own s) (hF : tableOf s dF = some tF) (hT : tableOf s dT = some tT)
    (hne : dF ≠ dT) (hoff : dF % 16 = dT % 16) (hi : i < 1024)
    (habs : (entry s (dT * 1024 + i)).target = none) :
    Inv lo own (copyEntry tF tT s i) ∧ Frame (· = dT * 1024 + i) s (copyEntry tF tT s i) ∧
      (copyEntry tF tT s i).pgDir = s.pgDir ∧
      Copied s (copyEntry tF tT s i) (dF * 1024 + i) (dT * 1024 + i) := by
  have hp : dF * 1024 + i ∈ userPages := page_mem (tableOf_eq_some.mp hF).1 hi
  have hq : dT * 1024 + i ∈ userPages := page_mem (tableOf_eq_some.mp hT).1 hi
  have hent : entry s (dF * 1024 + i) = s.pageTable tF i := entry_page hF hi
  obtain ⟨e, he⟩ : ∃ e, s.pageTable tF i = e := ⟨_, rfl⟩
  cases hpres : e.present with
  | false =>
    have hnone : (entry s (dF * 1024 + i)).target = none := by
      rw [hent, he]
      exact Pte.target_of_absent hpres
    rw [copyEntry_absent (he ▸ hpres)]
    exact ⟨h, Frame.refl _ s, rfl, Copied.of_absent hnone habs⟩
  | true =>
    have href : (view s own).ref (dF * 1024 + i) = some e.frame := by
      rw [view_ref, hent, he]
      exact Pte.target_of_present hpres
    rcases h.good.ent_frame _ hp _ href with hlow | ⟨h1, h2⟩
    · -- shared with the kernel, not counted
      rw [copyEntry_low (he ▸ hpres) (he ▸ hlow), he]
      have hupd := entry_setPte (e := e.readOnly) (table_inj h hT) hT hi
      refine ⟨h.attachLow hT hi habs hpres hlow, Frame.setPte (table_inj h hT) hT hi, rfl, ?_, ?_⟩
      · rw [hupd, Function.update_self, hent, he]
        rfl
      · apply seen_congr
        · rw [hupd, Function.update_self, hent, he]
          rfl
        · rw [hupd, Function.update_self, hent, he]
          rfl
        · exact fun _ _ => rfl
    · have hf : lowMem ≤ e.frame := Nat.le_trans h.fixed.lo_le h1
      have htt : tF ≠ tT := by
        rintro rfl
        exact hne (table_inj h hT _ hF)
      exact h.share hF hT hne hoff hi habs he hpres hf (copyEntry_main he hpres hf htt)

/-- The first table of the kernel: every page copied from it lies below `LOW_MEM`. -/
theorem copyEntry_kernel (h : Inv lo own s) (hF : tF = (s.pgDir 0).frame)
    (hT : tableOf s dT = some tT) (hi : i < 0xA0)
    (habs : (entry s (dT * 1024 + i)).target = none) :
    Inv lo own (copyEntry tF tT s i) ∧ Frame (· = dT * 1024 + i) s (copyEntry tF tT s i) ∧
      (copyEntry tF tT s i).pgDir = s.pgDir := by
  subst hF
  have hlow := h.fixed.kernel_low i hi
  cases hpres : (s.pageTable (s.pgDir 0).frame i).present with
  | false =>
    rw [copyEntry_absent hpres]
    exact ⟨h, Frame.refl _ s, rfl⟩
  | true =>
    rw [copyEntry_low hpres hlow]
    exact ⟨h.attachLow hT (by omega) habs hpres hlow, Frame.setPte (table_inj h hT) hT (by omega), rfl⟩

/-- The inner loop of `copy_page_tables` for a table of user space. -/
theorem copyTable_spec (h : Inv lo own s) (hF : tableOf s dF = some tF) (hT : tableOf s dT = some tT)
    (hne : dF ≠ dT) (hoff : dF % 16 = dT % 16)
    (habs : ∀ i < 1024, (entry s (dT * 1024 + i)).target = none) :
    Inv lo own (copyTable 1024 tF tT s) ∧ Frame (· / 1024 = dT) s (copyTable 1024 tF tT s) ∧
      (copyTable 1024 tF tT s).pgDir = s.pgDir ∧
      ∀ i < 1024, Copied s (copyTable 1024 tF tT s) (dF * 1024 + i) (dT * 1024 + i) := by
  have hdF : dF ∈ userDirs := (tableOf_eq_some.mp hF).1
  have hdT : dT ∈ userDirs := (tableOf_eq_some.mp hT).1
  -- the entries still to come are absent in the child, the others have been copied
  let I : List Nat → Mem → Prop := fun cs s' =>
    cs.Nodup ∧ (∀ c ∈ cs, c < 1024) ∧ Inv lo own s' ∧ Frame (· / 1024 = dT) s s' ∧
      s'.pgDir = s.pgDir ∧ (∀ c ∈ cs, (entry s' (dT * 1024 + c)).target = none) ∧
      ∀ i < 1024, i ∉ cs → Copied s s' (dF * 1024 + i) (dT * 1024 + i)
  have hstep : ∀ c cs s₁, I (c :: cs) s₁ → I cs (copyEntry tF tT s₁ c) := by
    rintro c cs s₁ ⟨hnodup, hlt, h₁, hframe, hdir, hnone, hcopied⟩
    obtain ⟨hc, hnodup'⟩ := List.nodup_cons.mp hnodup
    have hclt : c < 1024 := hlt c List.mem_cons_self
    have hF₁ : tableOf s₁ dF = some tF := by rw [← hF]; simp [tableOf, hdir]
    have hT₁ : tableOf s₁ dT = some tT := by rw [← hT]; simp [tableOf, hdir]
    obtain ⟨h₂, hframe₂, hdir₂, hcopy⟩ :=
      copyEntry_spec h₁ hF₁ hT₁ hne hoff hclt (hnone c List.mem_cons_self)
    refine ⟨hnodup', fun i hi => hlt i (List.mem_cons_of_mem _ hi), h₂,
      hframe.trans (hframe₂.mono fun q hq => by omega), hdir₂.trans hdir, ?_, ?_⟩
    · intro i hi
      have hilt := hlt i (List.mem_cons_of_mem _ hi)
      have hic : i ≠ c := fun heq => hc (heq ▸ hi)
      rw [hframe₂.ref (page_mem hdT hilt) (by omega)]
      exact hnone i (List.mem_cons_of_mem _ hi)
    · intro i hi hics
      rcases eq_or_ne i c with rfl | hic
      · exact hcopy.frame hframe (Frame.refl (fun _ => False) _) (page_mem hdF hi) (page_mem hdT hi)
          (by omega) not_false
      · have hold := hcopied i hi (by simp [hic, hics])
        exact hold.frame (Frame.refl (fun _ => False) _) hframe₂ (page_mem hdF hi) (page_mem hdT hi)
          not_false (by omega)
  unfold copyTable
  have hall : ∀ i < 1024, i ∈ List.range 1024 := fun i hi => List.mem_range.mpr hi
  have hlt : ∀ i ∈ List.range 1024, i < 1024 := fun i hi => List.mem_range.mp hi
  have hnodup : (List.range 1024).Nodup := List.nodup_range
  generalize List.range 1024 = L at *
  obtain ⟨-, -, h', hframe, hdir, -, hcopied⟩ := foldl_invariant hstep L s
    ⟨hnodup, hlt, h, Frame.refl _ s, rfl, fun i hi => habs i (hlt i hi),
      fun i hi hnot => absurd (hall i hi) hnot⟩
  exact ⟨h', hframe, hdir, fun i hi => hcopied i hi List.not_mem_nil⟩

/-- The inner loop of `copy_page_tables` for the kernel's first table. -/
theorem copyTable_kernel (h : Inv lo own s) (hF : tF = (s.pgDir 0).frame)
    (hT : tableOf s dT = some tT) (habs : ∀ i < 1024, (entry s (dT * 1024 + i)).target = none) :
    Inv lo own (copyTable 0xA0 tF tT s) ∧ Frame (· / 1024 = dT) s (copyTable 0xA0 tF tT s) ∧
      (copyTable 0xA0 tF tT s).pgDir = s.pgDir := by
  have hdT : dT ∈ userDirs := (tableOf_eq_some.mp hT).1
  let I : List Nat → Mem → Prop := fun cs s' =>
    cs.Nodup ∧ (∀ c ∈ cs, c < 0xA0) ∧ Inv lo own s' ∧ Frame (· / 1024 = dT) s s' ∧
      s'.pgDir = s.pgDir ∧ ∀ c ∈ cs, (entry s' (dT * 1024 + c)).target = none
  have hstep : ∀ c cs s₁, I (c :: cs) s₁ → I cs (copyEntry tF tT s₁ c) := by
    rintro c cs s₁ ⟨hnodup, hlt, h₁, hframe, hdir, hnone⟩
    obtain ⟨hc, hnodup'⟩ := List.nodup_cons.mp hnodup
    have hclt : c < 0xA0 := hlt c List.mem_cons_self
    have hT₁ : tableOf s₁ dT = some tT := by rw [← hT]; simp [tableOf, hdir]
    obtain ⟨h₂, hframe₂, hdir₂⟩ :=
      copyEntry_kernel h₁ (hF.trans (by rw [hdir])) hT₁ hclt (hnone c List.mem_cons_self)
    refine ⟨hnodup', fun i hi => hlt i (List.mem_cons_of_mem _ hi), h₂,
      hframe.trans (hframe₂.mono fun q hq => by omega), hdir₂.trans hdir, ?_⟩
    intro i hi
    have hilt := hlt i (List.mem_cons_of_mem _ hi)
    have hic : i ≠ c := fun heq => hc (heq ▸ hi)
    rw [hframe₂.ref (page_mem hdT (by omega)) (by omega)]
    exact hnone i (List.mem_cons_of_mem _ hi)
  unfold copyTable
  have hlt : ∀ i ∈ List.range 0xA0, i < 0xA0 := fun i hi => List.mem_range.mp hi
  have hnodup : (List.range 0xA0).Nodup := List.nodup_range
  generalize List.range 0xA0 = L at *
  obtain ⟨-, -, h', hframe, hdir, -⟩ := foldl_invariant hstep L s
    ⟨hnodup, hlt, h, Frame.refl _ s, rfl, fun i hi => habs i (by have := hlt i hi; omega)⟩
  exact ⟨h', hframe, hdir⟩

/-- What either loop needs of the new page table: it is installed and empty. -/
theorem Got.newTable {s' : Mem} {f : Nat} (g : Got lo own s f s') (hd : d ∈ userDirs)
    (habs : (s.pgDir d).present = false) :
    Inv lo own (s'.setDir d (Pte.user f)) ∧ tableOf (s'.setDir d (Pte.user f)) d = some f ∧
      (∀ d', d' ≠ d → tableOf (s'.setDir d (Pte.user f)) d' = tableOf s d') ∧
      Frame (fun _ => False) s (s'.setDir d (Pte.user f)) ∧
      entry (s'.setDir d (Pte.user f)) = entry s ∧
      ∀ i < 1024, (entry (s'.setDir d (Pte.user f)) (d * 1024 + i)).target = none := by
  have hnone := (tableOf_eq_none hd).mpr habs
  obtain ⟨h₁, ht, hother, hent⟩ := g.install hd hnone
  refine ⟨h₁, ht, hother, Frame.of_entry ⟨g.same.high, g.same.task, g.same.iCount⟩ ?_ ?_, hent, ?_⟩
  · exact fun p _ _ => by rw [hent]
  · intro p hp _ f' hf'
    have hne : f' ≠ f := fun heq => g.unmapped p hp (heq ▸ hf')
    show s'.page f' = s.page f'
    rw [g.page, Function.update_of_ne hne]
  · intro i hi
    rw [hent, entry_of_none (by rwa [show (d * 1024 + i) / 1024 = d by omega])]
    rfl

end entries

section dirs
variable {nr n dF dT : Nat}

theorem copyDirs_done : copyDirs nr 0 dF dT s = .ok (true, s) := by
  simp [copyDirs]

theorem copyDirs_exists (h : (s.pgDir dT).present = true) :
    copyDirs nr (n + 1) dF dT s = .error (.panic "copy_page_tables: already exist") := by
  simp [copyDirs, h]

theorem copyDirs_absent (h : (s.pgDir dT).present = false) (hF : (s.pgDir dF).present = false) :
    copyDirs nr (n + 1) dF dT s = copyDirs nr n (dF + 1) (dT + 1) s := by
  simp [copyDirs, h, hF]

theorem copyDirs_oom (h : (s.pgDir dT).present = false) (hF : (s.pgDir dF).present = true)
    (hget : getFreePage s = (none, s)) : copyDirs nr (n + 1) dF dT s = .ok (false, s) := by
  simp [copyDirs, h, hF, hget]

theorem copyDirs_table {f : Nat} {s' : Mem} (h : (s.pgDir dT).present = false)
    (hF : (s.pgDir dF).present = true) (hget : getFreePage s = (some f, s')) :
    copyDirs nr (n + 1) dF dT s = copyDirs nr n (dF + 1) (dT + 1)
      (copyTable nr ((s'.setDir dT (Pte.user f)).pgDir dF).frame f
        (s'.setDir dT (Pte.user f))) := by
  simp [copyDirs, h, hF, hget]

/-- One round of the outer loop of `copy_page_tables`: the table of slot `dT` is a copy. -/
theorem Got.copyDir {f : Nat} {s₁ : Mem} (g : Got lo own s f s₁) (hdF : dF ∈ userDirs) (hdT : dT ∈ userDirs)
    (hFpres : (s.pgDir dF).present = true) (hTpres : (s.pgDir dT).present = false) (hFT : dF ≠ dT)
    (hoff : dF % 16 = dT % 16) :
    let s₃ := copyTable 1024 ((s₁.setDir dT (Pte.user f)).pgDir dF).frame f (s₁.setDir dT (Pte.user f))
    Inv lo own s₃ ∧ Frame (· / 1024 = dT) s s₃ ∧ s₃.pgDir = Function.update s.pgDir dT (Pte.user f) ∧
      ∀ i < 1024, Copied s s₃ (dF * 1024 + i) (dT * 1024 + i) := by
  obtain ⟨h₂, hT₂, hother, hframe₂, -, hempty⟩ := g.newTable hdT hTpres
  obtain ⟨tF, htF⟩ : ∃ tF, ((s₁.setDir dT (Pte.user f)).pgDir dF).frame = tF := ⟨_, rfl⟩
  have hF₂ : tableOf (s₁.setDir dT (Pte.user f)) dF = some tF := by
    rw [hother dF hFT, ← htF]
    show _ = some (Function.update s₁.pgDir dT _ dF).frame
    rw [Function.update_of_ne hFT, g.dir]
    exact tableOf_eq_some.mpr ⟨hdF, hFpres, rfl⟩
  intro s₃
  obtain ⟨h₃, hframe₃, hdir₃, hcopied⟩ := copyTable_spec h₂ hF₂ hT₂ hFT hoff hempty
  rw [← htF] at h₃ hframe₃ hdir₃ hcopied
  refine ⟨h₃, (hframe₂.mono fun _ => False.elim).trans hframe₃, ?_, ?_⟩
  · rw [show s₃.pgDir = _ from hdir₃, ← g.dir]
    rfl
  · intro i hi
    exact (hcopied i hi).frame hframe₂ (Frame.refl (fun _ => False) _) (page_mem hdF hi)
      (page_mem hdT hi) not_false not_false

/-- The outer loop of `copy_page_tables` between two tasks. -/
theorem copyDirs_spec : ∀ (n dF dT : Nat) (s : Mem), Inv lo own s →
    16 ≤ dF → 16 ≤ dT → dF < 1024 → dT < 1024 → dF % 16 + n ≤ 16 → dF % 16 = dT % 16 →
    dF / 16 ≠ dT / 16 →
    Post (copyDirs 1024 n dF dT s)
      (fun r => Inv lo own r.2 ∧ Frame (fun p => dT ≤ p / 1024 ∧ p / 1024 < dT + n) s r.2 ∧
        (r.1 = true → ∀ d < n, ∀ i < 1024,
          Copied s r.2 ((dF + d) * 1024 + i) ((dT + d) * 1024 + i)))
      (fun e => e = .panic "copy_page_tables: already exist" ∧
        ∃ d, dT ≤ d ∧ d < dT + n ∧ (s.pgDir d).present = true)
  | 0, dF, dT, s, h, _, _, _, _, _, _, _ => by
    refine Post.ret ⟨h, Frame.refl _ s, ?_⟩
    intro _ d hd
    omega
  | n + 1, dF, dT, s, h, hF16, hT16, hFlt, hTlt, hn, hoff, hne => by
    have hdF : dF ∈ userDirs := mem_userDirs.mpr ⟨hF16, hFlt⟩
    have hdT : dT ∈ userDirs := mem_userDirs.mpr ⟨hT16, hTlt⟩
    -- the rest of the loop, from a state that has the first directory entry behind it
    have hrest : ∀ s₁, Inv lo own s₁ → Frame (· / 1024 = dT) s s₁ →
        (∀ d, d ≠ dT → (s₁.pgDir d).present = true → (s.pgDir d).present = true) →
        (∀ i < 1024, Copied s s₁ (dF * 1024 + i) (dT * 1024 + i)) →
        Post (copyDirs 1024 n (dF + 1) (dT + 1) s₁)
          (fun r => Inv lo own r.2 ∧
            Frame (fun p => dT ≤ p / 1024 ∧ p / 1024 < dT + (n + 1)) s r.2 ∧
            (r.1 = true → ∀ d < n + 1, ∀ i < 1024,
              Copied s r.2 ((dF + d) * 1024 + i) ((dT + d) * 1024 + i)))
          (fun e => e = .panic "copy_page_tables: already exist" ∧
            ∃ d, dT ≤ d ∧ d < dT + (n + 1) ∧ (s.pgDir d).present = true) := by
      intro s₁ h₁ hframe hdirs hcopied
      rcases Nat.eq_zero_or_pos n with rfl | hpos
      · refine Post.ret ⟨h₁, hframe.mono fun p hp => by omega, ?_⟩
        intro _ d hd i hi
        rw [show d = 0 by omega]
        exact hcopied i hi
      refine (copyDirs_spec n (dF + 1) (dT + 1) s₁ h₁ (by omega) (by omega) (by omega) (by omega)
        (by omega) (by omega) (by omega)).mono ?_ ?_
      · rintro ⟨b, s₂⟩ ⟨h₂, hframe₂, hcopied₂⟩
        refine ⟨h₂, (hframe.mono fun p hp => by omega).trans (hframe₂.mono fun p hp => by omega), ?_⟩
        intro hb d hd i hi
        rcases Nat.eq_zero_or_pos d with rfl | hdpos
        · exact (hcopied i hi).frame (Frame.refl (fun _ => False) _) hframe₂ (page_mem hdF hi)
            (page_mem hdT hi) not_false (by omega)
        · have hc := hcopied₂ hb (d - 1) (by omega) i hi
          rw [show dF + 1 + (d - 1) = dF + d by omega, show dT + 1 + (d - 1) = dT + d by omega] at hc
          exact hc.frame hframe (Frame.refl (fun _ => False) _)
            (page_mem (mem_userDirs.mpr (by omega)) hi) (page_mem (mem_userDirs.mpr (by omega)) hi)
            (by omega) not_false
      · rintro e ⟨he, d, hd1, hd2, hpres⟩
        exact ⟨he, d, by omega, by omega, hdirs d (by omega) hpres⟩
    cases hTpres : (s.pgDir dT).present with
    | true =>
      rw [copyDirs_exists hTpres]
      exact Post.stop ⟨rfl, dT, by omega, by omega, hTpres⟩
    | false =>
      have hTnone : ∀ i < 1024, (entry s (dT * 1024 + i)).target = none := by
        intro i hi
        have hnone := (tableOf_eq_none hdT).mpr hTpres
        rw [entry_of_none (by rwa [show (dT * 1024 + i) / 1024 = dT by omega])]
        rfl
      cases hFpres : (s.pgDir dF).present with
      | false =>
        rw [copyDirs_absent hTpres hFpres]
        refine hrest s h (Frame.refl _ s) (fun _ _ hd => hd) ?_
        intro i hi
        refine Copied.of_absent ?_ (hTnone i hi)
        have hnone := (tableOf_eq_none hdF).mpr hFpres
        rw [entry_of_none (by rwa [show (dF * 1024 + i) / 1024 = dF by omega])]
        rfl
      | true =>
        rcases getFreePage_spec h with hget | ⟨f, s₁, hget, g⟩
        · rw [copyDirs_oom hTpres hFpres hget]
          exact Post.ret ⟨h, Frame.refl _ s, by simp⟩
        · rw [copyDirs_table hTpres hFpres hget]
          obtain ⟨h₃, hframe₃, hdir₃, hcopied⟩ :=
            g.copyDir hdF hdT hFpres hTpres (by omega) hoff
          refine hrest _ h₃ hframe₃ ?_ hcopied
          intro d hd hpres
          rwa [hdir₃, Function.update_of_ne hd] at hpres

/-- The single directory entry that the first fork copies from the kernel. -/
theorem copyDirs_kernel (h : Inv lo own s) (hn : n ≤ 1) (hdT : dT ∈ userDirs) :
    Post (copyDirs 0xA0 n 0 dT s)
      (fun r => Inv lo own r.2 ∧ Frame (· / 1024 = dT) s r.2)
      (fun e => e = .panic "copy_page_tables: already exist") := by
  rcases Nat.eq_zero_or_pos n with rfl | hpos
  · exact Post.ret ⟨h, Frame.refl _ s⟩
  obtain rfl : n = 0 + 1 := by omega
  cases hTpres : (s.pgDir dT).present with
  | true =>
    rw [copyDirs_exists hTpres]
    exact Post.stop rfl
  | false =>
    cases hFpres : (s.pgDir 0).present with
    | false =>
      rw [copyDirs_absent hTpres hFpres]
      exact Post.ret ⟨h, Frame.refl _ s⟩
    | true =>
      rcases getFreePage_spec h with hget | ⟨f, s₁, hget, g⟩
      · rw [copyDirs_oom hTpres hFpres hget]
        exact Post.ret ⟨h, Frame.refl _ s⟩
      · rw [copyDirs_table hTpres hFpres hget]
        obtain ⟨h₂, hT₂, -, hframe₂, -, hempty⟩ := g.newTable hdT hTpres
        obtain ⟨h₃, hframe₃, -⟩ := copyTable_kernel h₂ rfl hT₂ hempty
        simp only [copyDirs_done, Post.ok_iff]
        exact ⟨h₃, (hframe₂.mono fun _ => False.elim).trans hframe₃⟩

end dirs

/-! ## By address

The linear space of task `n` is `[n * 64 MB, (n + 1) * 64 MB)`: sixteen directory slots. -/

theorem freePageTables_spec (h : Inv lo own s) {n size : Nat} (hn : 1 ≤ n ∧ n < 64)
    (hsize : size ≤ 0x4000000) :
    Post (freePageTables (n * 0x4000000) size s)
      (fun s' => Inv lo own s' ∧
        Frame (fun p => 16 * n ≤ p / 1024 ∧ p / 1024 < 16 * n + (size + 0x3fffff) / 0x400000) s s' ∧
        ∀ d, 16 * n ≤ d → d < 16 * n + (size + 0x3fffff) / 0x400000 → tableOf s' d = none)
      (fun _ => False) := by
  have hdir : dirIndex (n * 0x4000000) = 16 * n := by
    unfold dirIndex
    omega
  rw [freePageTables, if_neg (by omega), if_neg (by omega), hdir]
  refine (freeDirs_spec _ _ s h (by omega) (by omega)).imp ?_
  rintro s' ⟨h', hframe, hnone, -⟩
  exact ⟨h', hframe, hnone⟩

theorem copyPageTables_spec (h : Inv lo own s) {m n size : Nat} (hm : 1 ≤ m ∧ m < 64)
    (hn : 1 ≤ n ∧ n < 64) (hmn : m ≠ n) (hsize : size ≤ 0x4000000) :
    Post (copyPageTables (m * 0x4000000) (n * 0x4000000) size s)
      (fun r => Inv lo own r.2 ∧ Frame (· / 16384 = n) s r.2 ∧
        (r.1 = true → ∀ o < (size + 0x3fffff) / 0x400000 * 1024,
          Copied s r.2 (m * 16384 + o) (n * 16384 + o)))
      (fun e => e = .panic "copy_page_tables: already exist" ∧
        ∃ d, d / 16 = n ∧ (s.pgDir d).present = true) := by
  have hm' : dirIndex (m * 0x4000000) = 16 * m := by
    unfold dirIndex
    omega
  have hn' : dirIndex (n * 0x4000000) = 16 * n := by
    unfold dirIndex
    omega
  rw [copyPageTables, if_neg (by omega), if_neg (by omega), hm', hn']
  refine (copyDirs_spec _ _ _ s h (by omega) (by omega) (by omega) (by omega) (by omega) (by omega)
    (by omega)).mono ?_ ?_
  · rintro ⟨b, s'⟩ ⟨h', hframe, hcopied⟩
    refine ⟨h', hframe.mono fun p hp => by omega, ?_⟩
    intro hb o ho
    have hc := hcopied hb (o / 1024) (by omega) (o % 1024) (Nat.mod_lt _ (by decide))
    rwa [show (16 * m + o / 1024) * 1024 + o % 1024 = m * 16384 + o by omega,
      show (16 * n + o / 1024) * 1024 + o % 1024 = n * 16384 + o by omega] at hc
  · rintro e ⟨he, d, hd1, hd2, hpres⟩
    exact ⟨he, d, by omega, hpres⟩

theorem copyPageTables_kernel (h : Inv lo own s) {n size : Nat} (hn : 1 ≤ n ∧ n < 64)
    (hsize : size ≤ 0x400000) :
    Post (copyPageTables 0 (n * 0x4000000) size s)
      (fun r => Inv lo own r.2 ∧ Frame (· / 16384 = n) s r.2)
      (fun e => e = .panic "copy_page_tables: already exist") := by
  have hn' : dirIndex (n * 0x4000000) = 16 * n := by
    unfold dirIndex
    omega
  rw [copyPageTables, if_neg (by omega), if_pos rfl, hn']
  refine (copyDirs_kernel h (by omega) (mem_userDirs.mpr (by omega))).imp ?_
  rintro r ⟨h', hframe⟩
  exact ⟨h', hframe.mono fun p hp => by omega⟩

theorem getFreePage_of {s : Mem} {f : Nat} (h : (getFreePage s).1 = some f) :
    getFreePage s = (some f, (getFreePage s).2) := by
  rw [← h]

/-- A table with a single page in it is copied in one step. -/
theorem copyTable_single {s : Mem} {tF tT : Nat} (h : tF ≠ tT)
    (habs : ∀ i, 1 ≤ i → (s.pageTable tF i).present = false) :
    copyTable 1024 tF tT s = copyEntry tF tT s 0 := by
  have hskip : ∀ (L : List Nat) (s : Mem), (∀ i ∈ L, (s.pageTable tF i).present = false) →
      L.foldl (copyEntry tF tT) s = s := by
    intro L
    induction L with
    | nil => intro s _; rfl
    | cons i L ih =>
      intro s h
      rw [List.foldl_cons, copyEntry_absent (h i List.mem_cons_self)]
      exact ih s fun j hj => h j (List.mem_cons_of_mem _ hj)
  have hrange : List.range 1024 = 0 :: List.range' 1 1023 := by
    rw [List.range_eq_range', List.range'_succ]
  rw [copyTable, hrange, List.foldl_cons]
  refine hskip _ _ fun i hi => ?_
  have hi1 : 1 ≤ i := (List.mem_range'_1.mp hi).1
  have hkeep : (copyEntry tF tT s 0).pageTable tF i = s.pageTable tF i := by
    have hne : i ≠ 0 := by omega
    unfold copyEntry
    simp only
    split
    · split <;> simp [Mem.setPte, Mem.setCount, Function.update_of_ne h, Function.update_of_ne hne]
    · rfl
  rw [hkeep]
  exact habs i hi1

theorem copyDirs_rest {nr : Nat} : ∀ {n dF dT : Nat} {s : Mem},
    (∀ d < n, (s.pgDir (dF + d)).present = false ∧ (s.pgDir (dT + d)).present = false) →
    copyDirs nr n dF dT s = .ok (true, s)
  | 0, _, _, _, _ => copyDirs_done
  | n + 1, dF, dT, s, h => by
    have h0 : (s.pgDir dF).present = false ∧ (s.pgDir dT).present = false := h 0 (by omega)
    rw [copyDirs_absent h0.2 h0.1]
    refine copyDirs_rest fun d hd => ?_
    have hd' := h (d + 1) (by omega)
    rwa [show dF + (d + 1) = dF + 1 + d by omega, show dT + (d + 1) = dT + 1 + d by omega] at hd'

/-- The directory of a task with one page is copied by one table with one entry. -/
theorem copyDirs_single {n dF dT tF f : Nat} {s table : Mem} (hget : (getFreePage s).1 = some f)
    (htable : (getFreePage s).2.setDir dT (Pte.user f) = table) (hfree : (s.pgDir dT).present = false)
    (hold : (s.pgDir dF).present = true) (hframe : (table.pgDir dF).frame = tF) (hne : tF ≠ f)
    (habs : ∀ i, 1 ≤ i → (table.pageTable tF i).present = false)
    (hrest : ∀ d < n, ((copyEntry tF f table 0).pgDir (dF + 1 + d)).present = false ∧
      ((copyEntry tF f table 0).pgDir (dT + 1 + d)).present = false) :
    copyDirs 1024 (n + 1) dF dT s = .ok (true, copyEntry tF f table 0) := by
  rw [copyDirs_table hfree hold (getFreePage_of hget), htable, hframe, copyTable_single hne habs]
  exact copyDirs_rest hrest

end Linux011.Mm
