import Linux011.Mm.UserStores

/-!
# What `verify_area` verifies

`verify_area` walks over the pages of an area and unshares those that are present. The offset of the
area in its first page is added to the size in an `int`: for an area that ends within a page of 2^31 bytes
the sum is negative and the loop is not entered.
-/

namespace Linux011.Mm

open Linux011.Lib

/-- Every page of the task `n` that is present and overlaps `[addr, addr + size)` is writable. User
addresses are 32 bits wide. -/
def AreaWritable (s : Mem) (n addr : Nat) (size : Int) : Prop :=
  ∀ k : Nat, k < size → (addr + k) % 2 ^ 32 < 0x4000000 →
    (entry s (taskPage n ((addr + k) % 2 ^ 32))).present = true →
      (entry s (taskPage n ((addr + k) % 2 ^ 32))).rw = true

/-- The same, and no other task maps the page. -/
def AreaUnshared (s : Mem) (n addr : Nat) (size : Int) : Prop :=
  ∀ k : Nat, k < size → (addr + k) % 2 ^ 32 < 0x4000000 →
    (entry s (taskPage n ((addr + k) % 2 ^ 32))).present = true →
      (entry s (taskPage n ((addr + k) % 2 ^ 32))).rw = true ∧
        Exclusive s (taskPage n ((addr + k) % 2 ^ 32))

variable {file : ExeFile} {lo : Nat} {own : Nat → Nat} {s s' : Mem} {n addr : Nat} {size : Int}
  {current : Task}

/-- A writable page is not shared. -/
theorem areaUnshared_iff (h : Inv lo own s) (hn : 1 ≤ n ∧ n < 64) :
    AreaUnshared s n addr size ↔ AreaWritable s n addr size := by
  constructor
  · intro harea k hk ho hpres
    exact (harea k hk ho hpres).1
  · intro harea k hk ho hpres
    have hrw := harea k hk ho hpres
    obtain ⟨-, hexclusive⟩ := h.writable (taskPage_mem hn ho) hpres hrw
    exact ⟨hrw, hexclusive⟩

/-- `un_wp_page` writes one entry, and grants the permission there. -/
theorem unWpPage_entry (h : Inv lo own s) {d t i : Nat} (ht : tableOf s d = some t) (hi : i < 1024)
    (hok : unWpPage t i s = .ok s') :
    ∃ e : Pte, e.rw = true ∧ entry s' = Function.update (entry s) (d * 1024 + i) e := by
  have hinj := table_inj h ht
  unfold unWpPage at hok
  simp only at hok
  split at hok
  · cases hok
    exact ⟨_, rfl, entry_setPte hinj ht hi⟩
  · rcases getFreePage_spec h with hget | ⟨f, s₁, hget, g⟩
    · rw [hget] at hok
      cases hok
    · rw [hget] at hok
      cases hok
      refine ⟨Pte.user f, rfl, ?_⟩
      -- neither the count nor the bytes of a page show in an entry
      obtain ⟨s₂, hs₂⟩ : ∃ s₂, (if lowMem ≤ (s.pageTable t i).frame then
          s₁.setCount (mapNr (s.pageTable t i).frame) (s₁.memMap (mapNr (s.pageTable t i).frame) - 1)
        else s₁) = s₂ := ⟨_, rfl⟩
      have hsame : s₂.pgDir = s₁.pgDir ∧ s₂.pageTable = s₁.pageTable := by
        subst hs₂
        split <;> exact ⟨rfl, rfl⟩
      have htable : tableOf s₂ = tableOf s := by
        funext d'
        simp only [tableOf, hsame.1, g.dir]
      have hent : entry s₂ = entry s := by
        rw [← g.ent]
        funext q
        have htable₁ : tableOf s₁ = tableOf s := by
          funext d'
          simp only [tableOf, g.dir]
        simp only [entry, htable, htable₁, hsame.2]
      have hupd := entry_setPte (s := s₂) (e := Pte.user f) (by rw [htable]; exact hinj)
        (by rw [htable, ht]) hi
      rw [hent] at hupd
      rw [hs₂]
      exact hupd

/-- `write_verify` leaves the page it is about writable, and makes no page read-only. -/
theorem writeVerify_writable (h : Inv lo own s) {a : Nat} (ha : a < 2 ^ 32)
    (hok : writeVerify a s = .ok s') :
    (∀ q ∈ userPages, (entry s' q).present = true → (entry s q).rw = true → (entry s' q).rw = true) ∧
      (a / 4096 ∈ userPages → (entry s' (a / 4096)).present = true → (entry s' (a / 4096)).rw = true) := by
  rcases Decidable.em (a / 4096 ∈ userPages) with hp | hkernel
  · obtain ⟨h', -, hcase⟩ := (writeVerify_spec h hp).of_ok _ hok
    rcases hcase with ⟨rfl, hrw⟩ | ⟨hpres, hro, hun⟩
    · exact ⟨fun _ _ _ hq => hq, fun _ => hrw⟩
    · have hdir := dir_of_present hp hpres
      have hunwp : unWpPage (s.pgDir (dirIndex a)).frame (tableIndex a) s = .ok s' := by
        rw [entry_eq hp hdir] at hpres hro
        unfold writeVerify at hok
        simp only [hdir, if_true] at hok
        rw [if_pos ⟨hpres, by rw [hro]; decide⟩] at hok
        exact hok
      obtain ⟨e, he, hupd⟩ := unWpPage_entry (i := tableIndex a) h (table_of_present hp hdir)
        (Nat.mod_lt _ (by decide)) hunwp
      rw [page_eq hp] at hupd
      have hat : (entry s' (a / 4096)).rw = true := by
        rw [hupd, Function.update_self]
        exact he
      refine ⟨fun q _ _ hq => ?_, fun _ _ => hat⟩
      rcases eq_or_ne q (a / 4096) with rfl | hne
      · exact hat
      · rw [hupd, Function.update_of_ne hne]
        exact hq
  · rw [writeVerify_kernel h (by rw [mem_userPages] at hkernel; unfold dirIndex; omega)] at hok
    cases hok
    exact ⟨fun _ _ _ hq => hq, fun hp => absurd hp hkernel⟩

/-- The loop of `verify_area`: every page it has passed is writable if it is present. -/
theorem verifyPages_writable : ∀ (m start : Nat) (s : Mem), Inv lo own s → start < 2 ^ 32 →
    verifyPages m start s = .ok s' →
    Inv lo own s' ∧
      (∀ q ∈ userPages, (entry s' q).present = true → (entry s q).rw = true → (entry s' q).rw = true) ∧
      ∀ k < m, (start + 4096 * k) % 2 ^ 32 / 4096 ∈ userPages →
        (entry s' ((start + 4096 * k) % 2 ^ 32 / 4096)).present = true →
        (entry s' ((start + 4096 * k) % 2 ^ 32 / 4096)).rw = true
  | 0, _, s, h, _, hok => by
    cases hok
    exact ⟨h, fun _ _ _ hq => hq, fun k hk => absurd hk (Nat.not_lt_zero k)⟩
  | m + 1, start, s, h, hstart, hok => by
    unfold verifyPages at hok
    cases hverify : writeVerify start s with
    | error e =>
      rw [hverify] at hok
      cases hok
    | ok s₁ =>
      rw [hverify] at hok
      obtain ⟨h₁, -⟩ := (writeVerify_private h hstart).of_ok _ hverify
      obtain ⟨hkeep₁, hnew₁⟩ := writeVerify_writable h hstart hverify
      have hlt : (start + 4096) % 2 ^ 32 < 2 ^ 32 := Nat.mod_lt _ (by decide)
      obtain ⟨h₂, hkeep₂, hnew₂⟩ := verifyPages_writable m _ s₁ h₁ hlt hok
      obtain ⟨-, -, hpres₂, -⟩ := (verifyPages_spec m _ s₁ h₁ hlt).of_ok _ hok
      refine ⟨h₂, fun q hq hpres hrw => ?_, fun k hk hp hpres => ?_⟩
      · exact hkeep₂ q hq hpres (hkeep₁ q hq (by rw [← hpres₂ q hq, hpres]) hrw)
      · cases k with
        | zero =>
          rw [show (start + 4096 * 0) % 2 ^ 32 = start by omega] at hp hpres ⊢
          exact hkeep₂ _ hp hpres (hnew₁ hp (by rw [← hpres₂ _ hp, hpres]))
        | succ k =>
          have hshift : ((start + 4096) % 2 ^ 32 + 4096 * k) % 2 ^ 32
              = (start + 4096 * (k + 1)) % 2 ^ 32 := by omega
          have hk' := hnew₂ k (by omega)
          rw [hshift] at hk'
          exact hk' hp hpres

/-- An area whose size and offset do not overflow is verified. -/
theorem verifyArea_covers (h : Inv lo own s) (hn : 1 ≤ n ∧ n < 64)
    (hstart : current.startCode = n * 0x4000000) (hsize : 0 ≤ size) (hfits : size + addr % 4096 < 2 ^ 31)
    (hok : verifyArea current addr size s = .ok s') : AreaWritable s' n addr size := by
  unfold verifyArea at hok
  have hbmod : Int.bmod (size + addr % 4096) (2 ^ 32) = size + addr % 4096 := by
    apply Int.bmod_eq_of_le <;> omega
  simp only [hbmod] at hok
  obtain ⟨-, -, hnew⟩ := verifyPages_writable _ _ s h (Nat.mod_lt _ (by decide)) hok
  intro k hk ho hpres
  have hmem := taskPage_mem hn ho
  have hpage := hnew ((addr + k) / 4096 - addr / 4096) (by omega)
  rw [hstart, show ((addr / 4096 * 4096 + n * 0x4000000) % 2 ^ 32
      + 4096 * ((addr + k) / 4096 - addr / 4096)) % 2 ^ 32 / 4096 = taskPage n ((addr + k) % 2 ^ 32) by
    unfold taskPage
    omega] at hpage
  exact hpage hmem hpres

/-- The sum of size and offset is negative, and nothing is verified. -/
theorem verifyArea_overflow (hsize : size < 2 ^ 31) (hover : ¬ size + addr % 4096 < 2 ^ 31) :
    verifyArea current addr size s = .ok s := by
  have hbmod : Int.bmod (size + addr % 4096) (2 ^ 32) = size + addr % 4096 - 2 ^ 32 := by
    rw [Int.bmod_def]
    split <;> omega
  have hzero : ((Int.bmod (size + addr % 4096) (2 ^ 32) + 4095) / 4096).toNat = 0 := by
    rw [hbmod]
    omega
  unfold verifyArea
  simp only [hzero]
  rfl

/-- In every reachable state, after `verify_area` every present page of the area is writable and unshared
if and only if adding the offset did not overflow `int`, or all of them were writable before. -/
theorem verify_area_unshares {hi : Nat} {page : Nat → Nat → UInt8} {σ : Sys} (hlo : lowMem ≤ lo)
    (hhi : hi ≤ lowMem + pagingPages) (h : Reachable file lo hi page σ) (hn : 1 ≤ n ∧ n < 64)
    (ht : σ.mem.task n = some current) (hsize : 0 ≤ size ∧ size < 2 ^ 31)
    (hok : verifyArea current addr size σ.mem = .ok s') :
    AreaUnshared s' n addr size ↔ size + addr % 4096 < 2 ^ 31 ∨ AreaWritable σ.mem n addr size := by
  have hinv := Reachable.inv hlo hhi h
  have hstart := hinv.layout n current ht
  by_cases hfits : size + addr % 4096 < 2 ^ 31
  · obtain ⟨h', -⟩ := verifyArea_private hinv.inv hn hstart hok
    have hcovers := verifyArea_covers hinv.inv hn hstart hsize.1 hfits hok
    exact ⟨fun _ => Or.inl hfits, fun _ => (areaUnshared_iff h' hn).mpr hcovers⟩
  · rw [verifyArea_overflow hsize.2 hfits] at hok
    cases hok
    rw [areaUnshared_iff hinv.inv hn]
    exact ⟨Or.inr, fun hor => hor.resolve_left hfits⟩

namespace SharedStore

open LostStore (task loaded)

/-- Task 3 has the first page of the executable from task 1; it is read-only in both. -/
def shared : Mem :=
  ((tryToShare 0 (task 1) (task 3) second).toOption.map fun r => r.2).getD second

theorem reach_shared : Reachable LostStore.file 1024 4096 (fun _ _ => 0) ⟨shared, fun _ => 0⟩ := by
  refine reach_second.tail (Step.done (Op.tryToShare 0 1 3) ?_ ?_)
  · exact ⟨by decide, by decide, by decide, by decide, by decide +kernel⟩
  · have hshare : tryToShare 0 (task 1) (task 3) second = .ok (true, shared) := ok_of_fst second (by decide +kernel)
    show (tryToShare 0 (task 1) (task 3) second >>= _) = _
    rw [hshare]
    rfl

theorem shared_values : shared.task 3 = some (task 3) ∧ (entry shared (taskPage 3 1)).present = true ∧
    (entry shared (taskPage 3 1)).rw = false ∧ (verifyArea (task 3) 1 1 shared).toOption.isSome = true := by
  decide +kernel

end SharedStore

/-- An area of `2^31 - 1` bytes that does not begin with a page: its first page stays shared. -/
theorem verify_area_skips : ∃ σ s', Reachable LostStore.file 1024 4096 (fun _ _ => 0) σ ∧
    σ.mem.task 3 = some (LostStore.task 3) ∧
    verifyArea (LostStore.task 3) 1 (2 ^ 31 - 1) σ.mem = .ok s' ∧ ¬ AreaUnshared s' 3 1 (2 ^ 31 - 1) := by
  obtain ⟨htask, hpres, hro, -⟩ := SharedStore.shared_values
  refine ⟨_, _, SharedStore.reach_shared, htask, verifyArea_overflow (by decide) (by decide), ?_⟩
  intro harea
  obtain ⟨hrw, -⟩ := harea 0 (by decide) (by decide) hpres
  change (entry SharedStore.shared (taskPage 3 1)).rw = true at hrw
  rw [hro] at hrw
  cases hrw

/-- The same page and one byte: task 3 gets a page of its own. -/
theorem verify_area_unshares_page : ∃ s', verifyArea (LostStore.task 3) 1 1 SharedStore.shared = .ok s' ∧
    AreaUnshared s' 3 1 1 := by
  obtain ⟨htask, -, -, hsome⟩ := SharedStore.shared_values
  cases hok : verifyArea (LostStore.task 3) 1 1 SharedStore.shared with
  | error e =>
    rw [hok] at hsome
    cases hsome
  | ok s' =>
    have hiff := verify_area_unshares (by decide) (by decide) SharedStore.reach_shared (n := 3) (by decide)
      htask (by decide) hok
    exact ⟨s', rfl, hiff.mpr (Or.inl (by decide))⟩

end Linux011.Mm
