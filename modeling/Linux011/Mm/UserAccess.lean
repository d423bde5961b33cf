import Linux011.Mm.DirtyBit

/-!
# Pages of one task alone

With CR0.WP clear nothing stops the kernel from storing into a page that other tasks map read-only:
a system call has to unshare the page first. `verify_area` does so for the pages that are present.
-/

namespace Linux011.Mm

open Linux011.Lib

/-- The page behind `p` is in main memory and no other task maps it. -/
def Private (s : Mem) (p : Nat) : Prop := lowMem ≤ (entry s p).frame ∧ Exclusive s p

variable {file : ExeFile} {lo : Nat} {own : Nat → Nat} {s s' : Mem} {n o p q : Nat} {current : Task}

theorem Fresh.private {bytes : Nat → UInt8} (h : Fresh s s' p bytes) (hframe : Frame (· = p) s s') :
    Private s' p := by
  obtain ⟨f, hlow, hun, he, -⟩ := h
  refine ⟨by rw [he]; exact hlow, fun q hq hqp => ?_⟩
  rw [he, hframe.ref hq hqp]
  exact hun q hq

theorem taskPage_slot (ho : o < 0x4000000) : taskPage n o / 16384 = n := by
  unfold taskPage
  omega

theorem Frame.frame {S : Nat → Prop} (h : Frame S s s') (hq : q ∈ userPages) (hS : ¬ S q) :
    (entry s' q).frame = (entry s q).frame := by
  rcases h.ent q hq hS with he | he <;> rw [he]
  rfl

/-- A page stays as private as it was when other pages change, unless one of them comes to show the same frame. -/
theorem Private.kept {S : Nat → Prop} (hprivate : Private s q) (hframe : Frame S s s') (hq : q ∈ userPages)
    (hS : ¬ S q) (hnew : ∀ r ∈ userPages, S r → (entry s' r).target ≠ some (entry s q).frame) : Private s' q := by
  have hfr := hframe.frame hq hS
  refine ⟨by rw [hfr]; exact hprivate.1, fun r hr hrq => ?_⟩
  rw [hfr]
  by_cases hrS : S r
  · exact hnew r hr hrS
  · rw [hframe.ref hr hrS]
    exact hprivate.2 r hr hrq

/-! ## The pages of other tasks -/

/-- The first `nr` entries of the table `t` do not map the frame `f`. -/
def Avoids (nr f : Nat) (s : Mem) (t : Nat) : Prop :=
  ∀ i < nr, (s.pageTable t i).present = true → (s.pageTable t i).frame ≠ f

theorem Avoids.setPte {nr f t t' i : Nat} {e : Pte} (h : Avoids nr f s t) (he : e.present = true → e.frame ≠ f) :
    Avoids nr f (s.setPte t' i e) t := by
  intro j hj
  unfold Mem.setPte
  dsimp only
  by_cases ht : t = t'
  · subst ht
    rw [Function.update_self]
    by_cases hji : j = i
    · rw [hji, Function.update_self]
      exact he
    · rw [Function.update_of_ne hji]
      exact h j hj
  · rw [Function.update_of_ne ht]
    exact h j hj

theorem memMap_setCount {i j : Nat} {v : UInt8} (h : i ≠ j) : (s.setCount j v).memMap i = s.memMap i := by
  simp [Mem.setCount, Function.update_of_ne h]

/-- The count of `f` stays when entries are copied that do not map it. -/
theorem copyEntry_avoids {nr f tF i : Nat} (tT : Nat) (hf : lowMem ≤ f) (hi : i < nr) (hfrom : Avoids nr f s tF) :
    (copyEntry tF tT s i).memMap (mapNr f) = s.memMap (mapNr f) ∧ (copyEntry tF tT s i).pgDir = s.pgDir ∧
      ∀ t, Avoids nr f s t → Avoids nr f (copyEntry tF tT s i) t := by
  unfold copyEntry
  dsimp only
  split
  · next hpres =>
    have hne : (s.pageTable tF i).frame ≠ f := hfrom i hi hpres
    split
    · next hlow =>
      change lowMem ≤ (s.pageTable tF i).frame at hlow
      have hnr : mapNr f ≠ mapNr (s.pageTable tF i).frame := by
        unfold mapNr
        omega
      refine ⟨?_, rfl, fun t ht => ?_⟩
      · exact memMap_setCount hnr
      · have hro : (s.pageTable tF i).readOnly.present = true → (s.pageTable tF i).readOnly.frame ≠ f := fun _ => hne
        exact Avoids.setPte (ht.setPte hro) hro
    · exact ⟨rfl, rfl, fun t ht => ht.setPte fun _ => hne⟩
  · exact ⟨rfl, rfl, fun _ ht => ht⟩

theorem copyEntries_avoids {nr f tF : Nat} (tT : Nat) (hf : lowMem ≤ f) : ∀ (is : List Nat) (s : Mem), (∀ i ∈ is, i < nr) →
    Avoids nr f s tF →
    (is.foldl (copyEntry tF tT) s).memMap (mapNr f) = s.memMap (mapNr f) ∧
      (is.foldl (copyEntry tF tT) s).pgDir = s.pgDir ∧
      ∀ t, Avoids nr f s t → Avoids nr f (is.foldl (copyEntry tF tT) s) t
  | [], _, _, _ => ⟨rfl, rfl, fun _ h => h⟩
  | i :: is, s, hlt, hfrom => by
    obtain ⟨hmap, hdir, hkeep⟩ := copyEntry_avoids tT hf (hlt i List.mem_cons_self) hfrom
    obtain ⟨hmap', hdir', hkeep'⟩ := copyEntries_avoids tT hf is (copyEntry tF tT s i)
      (fun j hj => hlt j (List.mem_cons_of_mem _ hj)) (hkeep tF hfrom)
    exact ⟨hmap'.trans hmap, hdir'.trans hdir, fun t ht => hkeep' t (hkeep t ht)⟩

/-- `copy_page_tables` leaves alone the count of a page that it does not come upon. -/
theorem copyDirs_avoids {nr f : Nat} (hf : lowMem ≤ f) : ∀ (m dF dT : Nat) (s : Mem) {r : Bool × Mem},
    s.memMap (mapNr f) = 1 →
    (∀ d, dF ≤ d → d < dF + m → (s.pgDir d).present = true → Avoids nr f s (s.pgDir d).frame) →
    copyDirs nr m dF dT s = .ok r → r.2.memMap (mapNr f) = 1
  | 0, _, _, _, _, hone, _, hok => by
    cases hok
    exact hone
  | m + 1, dF, dT, s, r, hone, havoids, hok => by
    unfold copyDirs at hok
    split at hok
    · cases hok
    · next hfree =>
      split at hok
      · next hpres =>
        unfold getFreePage at hok
        cases hscan : scanFree s.memMap pagingPages with
        | none =>
          rw [hscan] at hok
          cases hok
          exact hone
        | some j =>
          rw [hscan] at hok
          dsimp only at hok
          have hne : mapNr f ≠ j := by
            rintro rfl
            rw [(scanFree_some hscan).2] at hone
            cases hone
          have hnew : ∀ t, Avoids nr f s t ∨ t = j + lowMem → ∀ s' : Mem,
              s'.pageTable = Function.update s.pageTable (j + lowMem) (fun _ => Pte.zero) → Avoids nr f s' t := by
            intro t ht s' hs' i hi
            rw [hs']
            by_cases htj : t = j + lowMem
            · rw [htj, Function.update_self]
              exact fun h => by cases h
            · rw [Function.update_of_ne htj]
              exact ht.resolve_right htj i hi
          generalize hs₁ : Mem.setDir _ dT (Pte.user (j + lowMem)) = s₁ at hok
          have htable : s₁.pageTable = Function.update s.pageTable (j + lowMem) (fun _ => Pte.zero) := by
            rw [← hs₁]
            rfl
          have hone₁ : s₁.memMap (mapNr f) = 1 := by
            rw [← hs₁]
            unfold Mem.setDir
            dsimp only
            rw [Function.update_of_ne hne, hone]
          have hdirs : ∀ d, dF ≤ d → d < dF + (m + 1) → (s₁.pgDir d).present = true →
              Avoids nr f s₁ (s₁.pgDir d).frame := by
            intro d h1 h2 hd
            have hcase : s₁.pgDir d = if d = dT then Pte.user (j + lowMem) else s.pgDir d := by
              rw [← hs₁]
              exact Function.update_apply ..
            rw [hcase] at hd ⊢
            split at hd
            · next hdT =>
              rw [if_pos hdT]
              exact hnew _ (.inr rfl) s₁ htable
            · next hdT =>
              rw [if_neg hdT]
              exact hnew _ (.inl (havoids d h1 h2 hd)) s₁ htable
          have hfirst : (s₁.pgDir dF).present = true := by
            rw [← hs₁]
            show (Function.update s.pgDir dT (Pte.user (j + lowMem)) dF).present = true
            rw [Function.update_apply]
            split
            · rfl
            · exact hpres
          obtain ⟨hmap, hdir, hkeep⟩ := copyEntries_avoids (j + lowMem) hf (List.range nr) s₁
            (fun i hi => List.mem_range.mp hi) (hdirs dF le_rfl (by omega) hfirst)
          refine copyDirs_avoids hf m (dF + 1) (dT + 1) _ (hmap.trans hone₁) (fun d h1 h2 hd => ?_) hok
          rw [hdir] at hd ⊢
          exact hkeep _ (hdirs d (by omega) (by omega) hd)
      · exact copyDirs_avoids hf m (dF + 1) (dT + 1) s hone (fun d h1 h2 => havoids d (by omega) (by omega)) hok

/-- A page of one task alone is counted once. -/
theorem Private.count (h : Inv lo own s) (hp : p ∈ userPages) (hpres : (entry s p).present = true)
    (hprivate : Private s p) : s.memMap (mapNr (entry s p).frame) = 1 := by
  have href : (view s own).ref p = some (entry s p).frame := Pte.target_of_present hpres
  obtain ⟨h1, h2⟩ := (h.good.ent_frame p hp _ href).resolve_left (Nat.not_lt.mpr hprivate.1)
  obtain ⟨hdir, hown⟩ := h.good.no_owner_of_ref hp href h1 h2
  have hcount := h.good.count _ h1 h2
  have hpos : 0 < (view s own).pteRefs (entry s p).frame := refs_pos_iff.mpr ⟨p, hp, href⟩
  have hle : ¬ 2 ≤ (view s own).pteRefs (entry s p).frame := by
    intro htwo
    obtain ⟨i, hi, j, hj, hij, hri, hrj⟩ := two_le_refs_iff.mp htwo
    rcases eq_or_ne i p with rfl | hip
    · exact hprivate.2 j hj hij.symm hrj
    · exact hprivate.2 i hi hip hri
  rw [view_cnt hprivate.1] at hcount
  apply UInt8.toNat_inj.mp
  show _ = 1
  omega

theorem private_of_count {f : Nat} (h : Inv lo own s) (hp : p ∈ userPages) (htgt : (entry s p).target = some f)
    (hlow : lowMem ≤ f) (hone : s.memMap (mapNr f) = 1) : Private s p := by
  obtain ⟨hpres, rfl⟩ := Pte.target_eq_some.mp htgt
  refine ⟨hlow, fun q hq hqp hrq => hqp ?_⟩
  obtain ⟨h1, h2⟩ := (h.good.ent_frame p hp _ htgt).resolve_left (Nat.not_lt.mpr hlow)
  exact h.good.eq_of_cnt_eq_one hq hp hrq htgt h1 h2 (by rw [view_cnt hlow, hone]; rfl)

/-- The pages of task `n` are mapped as before, and those other than `T` are as private as they were. -/
structure Spares (n : Nat) (T : Nat → Prop) (s s' : Mem) : Prop where
  target : ∀ p ∈ userPages, p / 16384 = n → (entry s' p).target = (entry s p).target
  alone : ∀ p ∈ userPages, p / 16384 = n → (entry s p).present = true → ¬ T p → Private s p → Private s' p

theorem Spares.of_entry {T : Nat → Prop} (hent : entry s' = entry s) : Spares n T s s' := by
  refine ⟨fun p _ _ => by rw [hent], fun p _ _ _ _ hprivate => ?_⟩
  unfold Private Exclusive
  rw [hent]
  exact hprivate

/-- The pages that have changed belong to other tasks, and show what they showed, or a page that was mapped nowhere,
or one that was mapped elsewhere. -/
theorem Spares.of_frame {S T : Nat → Prop} (hframe : Frame S s s') (hS : ∀ p, S p → p / 16384 ≠ n)
    (hnew : ∀ q ∈ userPages, S q → ∀ f, (entry s' q).target = some f →
      (entry s q).target = some f ∨ (∀ r ∈ userPages, (entry s r).target ≠ some f) ∨
        ∃ r ∈ userPages, (entry s r).target = some f ∧ (r / 16384 = n → T r)) : Spares n T s s' := by
  refine ⟨fun p hp hslot => hframe.ref hp fun hSp => hS p hSp hslot, ?_⟩
  intro p hp hslot hpres hT hprivate
  refine hprivate.kept hframe hp (fun hSp => hS p hSp hslot) fun q hq hSq hq' => ?_
  rcases hnew q hq hSq _ hq' with hold | hnone | ⟨r, hr, hold, hrT⟩
  · have hne : q ≠ p := fun heq => hS q hSq (heq ▸ hslot)
    exact hprivate.2 q hq hne hold
  · exact hnone p hp (Pte.target_of_present hpres)
  · rcases eq_or_ne r p with rfl | hne
    · exact hT (hrT hslot)
    · exact hprivate.2 r hr hne hold

/-- Copying the tables of another task, wholly or in part. -/
theorem Spares.of_copy {T : Nat → Prop} {b : Bool} {nr m dF dT k : Nat} (h : Inv lo own s) (h' : Inv lo own s')
    (hframe : Frame (· / 16384 = k) s s') (hk : k ≠ n) (hcopy : copyDirs nr m dF dT s = .ok (b, s'))
    (hfrom : ∀ d, dF ≤ d → d < dF + m → (s.pgDir d).present = true → ∀ p ∈ userPages, p / 16384 = n →
      (entry s p).present = true → Private s p → Avoids nr (entry s p).frame s (s.pgDir d).frame) :
    Spares n T s s' := by
  have htarget : ∀ p ∈ userPages, p / 16384 = n → (entry s' p).target = (entry s p).target :=
    fun p hp hslot => hframe.ref hp fun hpk => hk (hpk.symm.trans hslot)
  refine ⟨htarget, fun p hp hslot hpres _ hprivate => ?_⟩
  have hone := copyDirs_avoids hprivate.1 m dF dT s (hprivate.count h hp hpres)
    (fun d h1 h2 hd => hfrom d h1 h2 hd p hp hslot hpres hprivate) hcopy
  exact private_of_count h' hp ((htarget p hp hslot).trans (Pte.target_of_present hpres)) hprivate.1 hone

/-! ## verify_area -/

theorem Private.unshared (hframe : Frame (· = p) s s') (hp : p ∈ userPages)
    (hpres : (entry s p).present = true) (hun : Unshared s s' p) (hq : q ∈ userPages)
    (hpq : (entry s q).present = true) (hprivate : Private s q) (hinv : Inv lo own s') :
    Private s' q := by
  rcases eq_or_ne q p with rfl | hne
  · obtain ⟨hpres', hrw'⟩ := hun.writable hpres
    exact hinv.writable hp hpres' hrw'
  · refine hprivate.kept hframe hq hne ?_
    rintro r - rfl
    rcases hun.ent with ⟨-, he⟩ | ⟨-, f, -, hfresh, he⟩ <;> rw [he]
    · exact hprivate.2 r hp hne.symm
    · rw [Pte.target_user]
      intro heq
      exact hfresh q hq (by rw [heq]; exact Pte.target_of_present hpq)

/-- What `write_verify` does for the pages of user space: it unshares one, if that one is present, and
keeps all that were private. -/
theorem writeVerify_private (h : Inv lo own s) {a : Nat} (ha : a < 2 ^ 32) :
    Post (writeVerify a s)
      (fun s' => Inv lo own s' ∧ Same s s' ∧
        (∀ q ∈ userPages, (entry s' q).present = (entry s q).present) ∧
        (∀ q ∈ userPages, (entry s q).present = true → Private s q → Private s' q) ∧
        (a / 4096 ∈ userPages → (entry s (a / 4096)).present = true → Private s' (a / 4096)))
      (fun e => e = .oom s) := by
  rcases Decidable.em (a / 4096 ∈ userPages) with hp | hkernel
  · refine (writeVerify_spec h hp).imp ?_
    rintro s' ⟨h', hframe, hcase⟩
    rcases hcase with ⟨rfl, hrw⟩ | ⟨hpres, hro, hun⟩
    · refine ⟨h', Same.refl _, fun _ _ => rfl, fun _ _ _ hq => hq, fun _ hpres => ?_⟩
      exact h'.writable hp hpres (hrw hpres)
    · obtain ⟨hpres', hrw'⟩ := hun.writable hpres
      refine ⟨h', hframe.same, ?_, ?_, fun _ _ => h'.writable hp hpres' hrw'⟩
      · intro q hq
        rcases eq_or_ne q (a / 4096) with rfl | hne
        · rw [hpres', hpres]
        · rcases hframe.ent q hq hne with he | he <;> rw [he]
          rfl
      · exact fun q hq hpq hprivate => hprivate.unshared hframe hp hpres hun hq hpq h'
  · rw [writeVerify_kernel h (by rw [mem_userPages] at hkernel; unfold dirIndex; omega)]
    exact Post.ret ⟨h, Same.refl s, fun _ _ => rfl, fun _ _ _ hq => hq, fun hp => absurd hp hkernel⟩

theorem verifyPages_spec : ∀ (m start : Nat) (s : Mem), Inv lo own s → start < 2 ^ 32 →
    Post (verifyPages m start s)
      (fun s' => Inv lo own s' ∧ Same s s' ∧
        (∀ q ∈ userPages, (entry s' q).present = (entry s q).present) ∧
        (∀ q ∈ userPages, (entry s q).present = true → Private s q → Private s' q) ∧
        ∀ k < m, (start + 4096 * k) % 2 ^ 32 / 4096 ∈ userPages →
          (entry s ((start + 4096 * k) % 2 ^ 32 / 4096)).present = true →
          Private s' ((start + 4096 * k) % 2 ^ 32 / 4096))
      (fun _ => True)
  | 0, _, s, h, _ => Post.ret ⟨h, Same.refl s, fun _ _ => rfl, fun _ _ _ hq => hq,
      fun k hk => absurd hk (Nat.not_lt_zero k)⟩
  | m + 1, start, s, h, hstart => by
    refine Post.bind ((writeVerify_private h hstart).mono (fun _ hs => hs) (fun _ _ => trivial)) ?_
    rintro s₁ ⟨h₁, hsame₁, hpres₁, hkeep₁, hnew₁⟩
    refine (verifyPages_spec m _ s₁ h₁ (Nat.mod_lt _ (by decide))).imp ?_
    rintro s₂ ⟨h₂, hsame₂, hpres₂, hkeep₂, hnew₂⟩
    refine ⟨h₂, hsame₁.trans hsame₂, fun q hq => (hpres₂ q hq).trans (hpres₁ q hq), ?_, ?_⟩
    · intro q hq hpq hprivate
      exact hkeep₂ q hq (by rw [hpres₁ q hq, hpq]) (hkeep₁ q hq hpq hprivate)
    · intro k hk hp hpres
      cases k with
      | zero =>
        rw [show (start + 4096 * 0) % 2 ^ 32 = start by omega] at hp hpres ⊢
        exact hkeep₂ _ hp (by rw [hpres₁ _ hp, hpres]) (hnew₁ hp hpres)
      | succ k =>
        have hshift : ((start + 4096) % 2 ^ 32 + 4096 * k) % 2 ^ 32
            = (start + 4096 * (k + 1)) % 2 ^ 32 := by omega
        have hk' := hnew₂ k (by omega)
        rw [hshift] at hk'
        exact hk' hp (by rw [hpres₁ _ hp, hpres])

/-- After `verify_area` every present page of the area is private, unless adding the offset overflowed
`size`. -/
theorem verifyArea_private (h : Inv lo own s) (hn : 1 ≤ n ∧ n < 64)
    (hstart : current.startCode = n * 0x4000000) {buf : Nat} {count : Int}
    (hverify : verifyArea current buf count s = .ok s') :
    Inv lo own s' ∧ Same s s' ∧ (∀ q ∈ userPages, (entry s' q).present = (entry s q).present) ∧
      (∀ q ∈ userPages, (entry s q).present = true → Private s q → Private s' q) ∧
      (count + buf % 4096 < 2 ^ 31 → ∀ k : Nat, k < count → buf + k < 0x4000000 →
        (entry s' (taskPage n (buf + k))).present = true → Private s' (taskPage n (buf + k))) := by
  unfold verifyArea at hverify
  obtain ⟨h', hsame, hpres, hkeep, hnew⟩ := (verifyPages_spec _ _ s h (Nat.mod_lt _ (by decide))).of_ok _
    hverify
  refine ⟨h', hsame, hpres, hkeep, fun hfits k hk hbuf hpk => ?_⟩
  have hmem := taskPage_mem hn hbuf
  have hbmod : Int.bmod (count + buf % 4096) (2 ^ 32) = count + buf % 4096 := by
    apply Int.bmod_eq_of_le <;> omega
  have hpage := hnew ((buf + k) / 4096 - buf / 4096)
  rw [hstart, show ((buf / 4096 * 4096 + n * 0x4000000) % 2 ^ 32
      + 4096 * ((buf + k) / 4096 - buf / 4096)) % 2 ^ 32 / 4096 = taskPage n (buf + k) by
    unfold taskPage; omega] at hpage
  refine hpage ?_ hmem (by rw [← hpres _ hmem]; exact hpk)
  simp only [hbmod]
  omega

end Linux011.Mm
