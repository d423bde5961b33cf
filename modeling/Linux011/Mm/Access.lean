import Linux011.Mm.Sharing

/-!
# Stores

What the processor does with the page tables: it finds the entry of an address, faults when the
page is absent or, in user mode, write-protected, and otherwise stores the byte and sets the dirty bit.
`head.s` leaves CR0.WP clear, so a store by the kernel heeds the present bit only.
-/

namespace Linux011.Mm

open Linux011.Lib

variable {lo : Nat} {own : Nat → Nat} {s : Mem} {a p : Nat} {v : UInt8}

/-- The entry the processor uses for an address. -/
def walk (s : Mem) (address : Nat) : Pte :=
  if (s.pgDir (dirIndex address)).present
  then s.pageTable (s.pgDir (dirIndex address)).frame (tableIndex address) else Pte.zero

/-- The store itself, through a present entry. -/
def Mem.store (address : Nat) (v : UInt8) (s : Mem) : Mem :=
  let e := walk s address
  let s := s.setPte (s.pgDir (dirIndex address)).frame (tableIndex address) e.touched
  s.setPage e.frame (Function.update (s.page e.frame) (address % 4096) v)

/-- The not-present fault, if there is one. -/
def demandPage (file : ExeFile) (cur : Nat) (current : Task) (address : Nat) (s : Mem) :
    Except Stop Mem :=
  if (walk s address).present then .ok s else doNoPage file address cur current s

/-- The write-protection fault, if there is one. -/
def writablePage (address : Nat) (s : Mem) : Except Stop Mem :=
  if (walk s address).rw then .ok s else doWpPage address s

/-- A store by the task `current` in slot `cur`, with the faults it causes. -/
def userStore (file : ExeFile) (cur : Nat) (current : Task) (address : Nat) (v : UInt8) (s : Mem) :
    Except Stop Mem := do
  let s ← demandPage file cur current address s
  let s ← writablePage address s
  return s.store address v

/-- A store by the kernel into the space of the task `current` (`put_fs_byte`). -/
def putFsByte (file : ExeFile) (cur : Nat) (current : Task) (address : Nat) (v : UInt8) (s : Mem) :
    Except Stop Mem := do
  let s ← demandPage file cur current address s
  return s.store address v

/-- The bytes of a `long`, least significant first. -/
def longBytes (v : Nat) : List UInt8 :=
  [UInt8.ofNat v, UInt8.ofNat (v / 2 ^ 8), UInt8.ofNat (v / 2 ^ 16), UInt8.ofNat (v / 2 ^ 24)]

/-- No other linear page of user space maps the page that `p` maps. -/
def Exclusive (s : Mem) (p : Nat) : Prop :=
  ∀ q ∈ userPages, q ≠ p → (entry s q).target ≠ some (entry s p).frame

theorem walk_eq (hp : a / 4096 ∈ userPages) : walk s a = entry s (a / 4096) := by
  unfold walk
  split
  · next hdir => exact (entry_eq hp hdir).symm
  · next hdir =>
    rw [entry_of_none]
    rw [← dirIndex_eq hp, tableOf_eq_none (by rw [dirIndex_eq hp]; exact dir_mem hp)]
    simpa using hdir

/-- A writable page of user space lies in main memory and is mapped nowhere else. -/
theorem Inv.writable (h : Inv lo own s) (hp : p ∈ userPages) (hpres : (entry s p).present = true)
    (hrw : (entry s p).rw = true) :
    lowMem ≤ (entry s p).frame ∧ Exclusive s p := by
  have href : (view s own).ref p = some (entry s p).frame := Pte.target_of_present hpres
  have hmain : lowMem ≤ (entry s p).frame := by
    by_contra hlow
    have hro := h.good.low_ro p hp _ href (by omega)
    rw [view_ent, hrw] at hro
    cases hro
  refine ⟨hmain, fun q hq hqp htgt => ?_⟩
  have hro := h.good.shared_ro p hp q hq _ href htgt hmain (Ne.symm hqp)
  rw [view_ent, hrw] at hro
  cases hro

/-- What `un_wp_page` leaves is such a page. -/
theorem Unshared.writable {s' : Mem} (h : Unshared s s' p) (hpres : (entry s p).present = true) :
    (entry s' p).present = true ∧ (entry s' p).rw = true := by
  rcases h.ent with ⟨-, he⟩ | ⟨-, f, -, -, he⟩ <;> rw [he]
  · exact ⟨hpres, rfl⟩
  · exact ⟨rfl, rfl⟩

theorem entry_store (h : Inv lo own s) (hp : a / 4096 ∈ userPages)
    (hpres : (entry s (a / 4096)).present = true) :
    entry (s.store a v) = Function.update (entry s) (a / 4096) (entry s (a / 4096)).touched := by
  have ht := table_of_present hp (dir_of_present hp hpres)
  have hupd := entry_setPte (e := (entry s (a / 4096)).touched) (table_inj h ht) ht
    (i := tableIndex a) (Nat.mod_lt _ (by decide))
  rw [page_eq hp, ← walk_eq hp] at hupd
  rw [← walk_eq hp]
  exact hupd

theorem page_store (hp : a / 4096 ∈ userPages) : (s.store a v).page =
    Function.update s.page (entry s (a / 4096)).frame
      (Function.update (s.page (entry s (a / 4096)).frame) (a % 4096) v) := by
  rw [← walk_eq hp]
  rfl

/-- A store changes the entry by its dirty bit only, and is seen nowhere else when the page is mapped
nowhere else. -/
theorem store_spec (h : Inv lo own s) (hp : a / 4096 ∈ userPages)
    (hpres : (entry s (a / 4096)).present = true) :
    Inv lo own (s.store a v) ∧ Same s (s.store a v) ∧
      (Exclusive s (a / 4096) → Frame (· = a / 4096) s (s.store a v)) := by
  have ht := table_of_present hp (dir_of_present hp hpres)
  have hgood := h.good.flags (e := (entry s (a / 4096)).touched) h.fixed.lo_le hp rfl Or.inl
  rw [← page_eq hp] at hgood
  refine ⟨?_, ⟨rfl, rfl, rfl⟩, fun hex => ?_⟩
  · have hinv := h.setPte ht (Nat.mod_lt _ (by decide)) hgood
    rw [page_eq hp, ← walk_eq hp] at hinv
    exact ⟨hinv.good, hinv.fixed.setPage _⟩
  · refine Frame.of_entry ⟨rfl, rfl, rfl⟩ ?_ ?_
    · intro q _ hq
      rw [entry_store h hp hpres, Function.update_of_ne hq]
    · intro q hq hne f hf
      rw [page_store hp]
      apply Function.update_of_ne
      rintro rfl
      exact hex q hq hne hf

/-- What the stored-to page shows afterwards. -/
theorem seen_store (h : Inv lo own s) (hp : a / 4096 ∈ userPages)
    (hpres : (entry s (a / 4096)).present = true) :
    seen (s.store a v) (a / 4096) =
      some (true, Function.update (s.page (entry s (a / 4096)).frame) (a % 4096) v) := by
  unfold seen
  rw [entry_store h hp hpres, Function.update_self, Pte.target_touched, Pte.target_of_present hpres,
    page_store hp]
  simp [Pte.touched]

/-! ## Stores with their faults -/

variable {file : ExeFile} {n : Nat} {current : Task}

theorem Loaded.present {tmp : Nat} {s' : Mem} (h : Loaded file n current tmp p s s') :
    (entry s' p).present = true := by
  cases h with
  | empty _ fresh =>
    obtain ⟨f, -, -, he, -⟩ := fresh
    rw [he]
    rfl
  | shared _ _ _ donor copied =>
    have htgt := Pte.target_of_present donor.2.2.1
    exact (Pte.target_eq_some.mp (copied.target.trans htgt)).1
  | read _ _ _ fresh =>
    obtain ⟨f, -, -, he, -⟩ := fresh
    rw [he]
    rfl

/-- The ways a fault can end without returning: the task is killed, and no page changed except that it
may have been brought in. -/
def Killed (lo : Nat) (own : Nat → Nat) (s : Mem) (p : Nat) (e : Stop) : Prop :=
  ∃ s', e = .oom s' ∧ Inv lo own s' ∧ Frame (· = p) s s'

theorem page_of_slot (ha : a / 0x4000000 = n) (hn : 1 ≤ n ∧ n < 64) : a / 4096 ∈ userPages := by
  rw [mem_userPages]
  omega

theorem demandPage_spec (h : Inv lo own s) (hlay : Layout s) (hn : 1 ≤ n ∧ n < 64)
    (ht : s.task n = some current) (ha : a / 0x4000000 = n) :
    Post (demandPage file n current a s)
      (fun s' => Inv lo own s' ∧ Frame (· = a / 4096) s s' ∧
        (entry s' (a / 4096)).present = true ∧
        (((entry s (a / 4096)).present = true ∧ s' = s) ∨
          ((entry s (a / 4096)).present = false ∧
            Loaded file n current (a / 4096 * 4096 - n * 0x4000000) (a / 4096) s s')))
      (Killed lo own s (a / 4096)) := by
  have hp := page_of_slot ha hn
  unfold demandPage
  rw [walk_eq hp]
  cases hpres : (entry s (a / 4096)).present with
  | true => exact Post.ret ⟨h, Frame.refl _ s, hpres, Or.inl ⟨rfl, rfl⟩⟩
  | false =>
    refine (doNoPage_spec file h hlay hn (hlay _ _ ht) ha (Pte.target_of_absent hpres)).mono ?_ ?_
    · rintro s' ⟨h', hframe, hload⟩
      exact ⟨h', hframe, hload.present, Or.inr ⟨rfl, hload⟩⟩
    · rintro e ⟨s', he, h', hframe⟩
      exact ⟨s', he, h', hframe.mono fun _ => False.elim⟩

theorem writablePage_spec (h : Inv lo own s) (hp : a / 4096 ∈ userPages)
    (hpres : (entry s (a / 4096)).present = true) :
    Post (writablePage a s)
      (fun s' => Inv lo own s' ∧ Frame (· = a / 4096) s s' ∧
        (entry s' (a / 4096)).present = true ∧ (entry s' (a / 4096)).rw = true ∧
        s'.page (entry s' (a / 4096)).frame = s.page (entry s (a / 4096)).frame)
      (fun e => e = .oom s) := by
  unfold writablePage
  rw [walk_eq hp]
  cases hrw : (entry s (a / 4096)).rw with
  | true => exact Post.ret ⟨h, Frame.refl _ s, hpres, hrw, rfl⟩
  | false =>
    refine (doWpPage_spec h hp hpres).imp ?_
    rintro s' ⟨h', hframe, hun⟩
    exact ⟨h', hframe, (hun.writable hpres).1, (hun.writable hpres).2, hun.bytes⟩

/-- A user store ends with its page written and mapped for the storing task alone, and all other pages
showing what they showed. -/
theorem userStore_spec (h : Inv lo own s) (hlay : Layout s) (hn : 1 ≤ n ∧ n < 64)
    (ht : s.task n = some current) (ha : a / 0x4000000 = n) :
    Post (userStore file n current a v s)
      (fun s' => Inv lo own s' ∧ Frame (· = a / 4096) s s' ∧ ∃ bytes,
        seen s' (a / 4096) = some (true, Function.update bytes (a % 4096) v) ∧
        ((entry s (a / 4096)).present = true → bytes = s.page (entry s (a / 4096)).frame) ∧
        ((entry s (a / 4096)).present = false →
          (current.executable = none ∨ current.endData ≤ a / 4096 * 4096 - n * 0x4000000) →
          bytes = fun _ => 0))
      (Killed lo own s (a / 4096)) := by
  have hp := page_of_slot ha hn
  refine Post.bind (demandPage_spec h hlay hn ht ha) ?_
  rintro s₁ ⟨h₁, hframe₁, hpres₁, hcase⟩
  refine Post.bind ((writablePage_spec h₁ hp hpres₁).mono (fun _ hs => hs) ?_) ?_
  · rintro e rfl
    exact ⟨s₁, rfl, h₁, hframe₁⟩
  rintro s₂ ⟨h₂, hframe₂, hpres₂, hrw₂, hbytes⟩
  obtain ⟨h₃, -, hframe₃⟩ := store_spec (v := v) h₂ hp hpres₂
  have hex := (h₂.writable hp hpres₂ hrw₂).2
  refine Post.ret ⟨h₃, (hframe₁.trans hframe₂).trans (hframe₃ hex),
    s₁.page (entry s₁ (a / 4096)).frame, ?_, ?_, ?_⟩
  · rw [seen_store h₂ hp hpres₂, hbytes]
  · intro hpres
    rcases hcase with ⟨-, rfl⟩ | ⟨habs, -⟩
    · rfl
    · rw [hpres] at habs
      cases habs
  · intro habs hbeyond
    rcases hcase with ⟨hpres, -⟩ | ⟨-, hload⟩
    · rw [hpres] at habs
      cases habs
    · cases hload with
      | empty _ fresh =>
        obtain ⟨f, -, -, he, hzero⟩ := fresh
        rw [he]
        exact hzero
      | shared inside shares =>
        obtain ⟨⟨x, hx, -⟩, -⟩ := shares
        rcases hbeyond with hexe | hend
        · rw [hx] at hexe
          cases hexe
        · omega
      | read exe inside =>
        rcases hbeyond with hexe | hend
        · rw [exe] at hexe
          cases hexe
        · omega

end Linux011.Mm
