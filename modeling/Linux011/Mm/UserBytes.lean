import Linux011.Mm.AddressSpace
import Linux011.Mm.UserAccess

/-!
# User memory as an array of bytes

What the kernel stores into user memory it reads back. A store may bring its page in, and may go to a page that
another task maps too: what the storing task reads is the same, since no two pages of one task share a frame.
-/

namespace Linux011.Mm

open Linux011.Lib

/-- `put_fs_byte` for successive bytes from offset `o` of the data segment on, while no other task runs. A store
beyond the limit of the segment kills the task. -/
def putBytes (file : ExeFile) (cur : Nat) (current : Task) : Nat → List UInt8 → Mem → Except Stop Mem
  | _, [], s => .ok s
  | o, b :: bytes, s =>
    if current.dataLimit ≤ o then .error (.die "general protection")
    else do
      let s ← putFsByte file cur current (current.startCode + o) b s
      putBytes file cur current (o + 1) bytes s

/-- `put_fs_long` -/
def putFsLong (file : ExeFile) (cur : Nat) (current : Task) (v o : Nat) (s : Mem) : Except Stop Mem :=
  if current.dataLimit < o + 4 then .error (.die "general protection")
  else putBytes file cur current o (longBytes v) s

/-- The byte at offset `o` of slot `n`, if its page is there. -/
def byteAt (s : Mem) (n o : Nat) : Option UInt8 :=
  (entry s (taskPage n o)).target.map fun f => s.page f (o % 4096)

/-- The bytes from `o` on are `bytes`. -/
def Holds (s : Mem) (n o : Nat) (bytes : List UInt8) : Prop :=
  ∀ i (h : i < bytes.length), byteAt s n (o + i) = some bytes[i]

/-- What is there stays as it is, but from `a` up to `b`. -/
def KeepsBut (n a b : Nat) (s s' : Mem) : Prop :=
  ∀ o < 0x4000000, ¬ (a ≤ o ∧ o < b) → ∀ v, byteAt s n o = some v → byteAt s' n o = some v

/-- The memory of a task whose pages all lie in main memory. -/
structure UserMem (lo n : Nat) (t : Task) (s : Mem) : Prop where
  inv : ∃ own, Inv lo own s
  layout : Layout s
  slot : 1 ≤ n ∧ n < 64
  task : s.task n = some t
  main : ∀ p ∈ userPages, p / 16384 = n → ∀ f, (entry s p).target = some f → lowMem ≤ f

/-- The task is killed for want of a page. -/
def Oom (e : Stop) : Prop := ∃ s, e = .oom s

variable {file : ExeFile} {lo n o a b c : Nat} {t : Task} {s s' s'' : Mem} {v : UInt8} {xs ys : List UInt8}

theorem byteAt_eq_some : byteAt s n o = some v ↔
    ∃ f, (entry s (taskPage n o)).target = some f ∧ s.page f (o % 4096) = v := Option.map_eq_some_iff

theorem byteAt_congr (h : seen s' (taskPage n o) = seen s (taskPage n o)) : byteAt s' n o = byteAt s n o := by
  have hbyte : ∀ s : Mem, byteAt s n o = (seen s (taskPage n o)).map fun x => x.2 (o % 4096) := by
    intro s
    unfold byteAt seen
    rw [Option.map_map]
    rfl
  rw [hbyte, hbyte, h]

theorem present_of_byteAt (h : byteAt s n o = some v) : (entry s (taskPage n o)).present = true := by
  obtain ⟨f, hf, -⟩ := byteAt_eq_some.mp h
  exact (Pte.target_eq_some.mp hf).1

/-- Such a byte is the one that the program reads. -/
theorem space_of_byteAt (hn : 1 ≤ n ∧ n < 64) (ho : o < 0x4000000) (h : byteAt s n o = some v) :
    space file s n t o = v := by
  obtain ⟨f, hf, hv⟩ := byteAt_eq_some.mp h
  rw [space_eq hn ho]
  unfold seen
  rw [hf]
  exact hv

/-! ## Rows of bytes -/

namespace KeepsBut

theorem refl : KeepsBut n a b s s := fun _ _ _ _ h => h

theorem trans (h : KeepsBut n a b s s') (h' : KeepsBut n a b s' s'') : KeepsBut n a b s s'' :=
  fun o ho hout v hv => h' o ho hout v (h o ho hout v hv)

theorem mono {a' b' : Nat} (h : KeepsBut n a b s s') (ha : a' ≤ a) (hb : b ≤ b') : KeepsBut n a' b' s s' :=
  fun o ho hout v hv => h o ho (by omega) v hv

theorem holds (h : KeepsBut n a b s s') (hx : Holds s n o xs) (hfits : o + xs.length ≤ 0x4000000)
    (hout : o + xs.length ≤ a ∨ b ≤ o) : Holds s' n o xs :=
  fun i hi => h (o + i) (by omega) (by omega) _ (hx i hi)

end KeepsBut

namespace Holds

theorem nil : Holds s n o [] := fun _ h => absurd h (Nat.not_lt_zero _)

theorem cons : Holds s n o (v :: xs) ↔ byteAt s n o = some v ∧ Holds s n (o + 1) xs := by
  constructor
  · intro h
    refine ⟨h 0 (Nat.zero_lt_succ _), fun i hi => ?_⟩
    rw [Nat.add_assoc, Nat.add_comm 1]
    exact h (i + 1) (Nat.succ_lt_succ hi)
  · rintro ⟨h, hx⟩ i hi
    cases i with
    | zero => exact h
    | succ i =>
      rw [show o + (i + 1) = o + 1 + i by omega]
      exact hx i (Nat.lt_of_succ_lt_succ hi)

theorem append : Holds s n o (xs ++ ys) ↔ Holds s n o xs ∧ Holds s n (o + xs.length) ys := by
  induction xs generalizing o with
  | nil => exact ⟨fun h => ⟨nil, h⟩, fun h => h.2⟩
  | cons x xs ih =>
    rw [List.cons_append, cons, cons, ih, and_assoc, List.length_cons, Nat.add_assoc, Nat.add_comm 1]

end Holds

/-! ## Stores -/

theorem Loaded.main {tmp p : Nat} (h : Loaded file n t tmp p s s') :
    ∀ f, (entry s' p).target = some f → lowMem ≤ f := by
  have hfresh : ∀ {bytes : Nat → UInt8}, Fresh s s' p bytes → ∀ f, (entry s' p).target = some f → lowMem ≤ f := by
    rintro bytes ⟨g, hlow, -, he, -⟩ f hf
    rw [he] at hf
    cases hf
    exact hlow
  cases h with
  | empty _ fresh => exact hfresh fresh
  | shared _ _ _ donor copied =>
    intro f hf
    obtain ⟨hpres, -, hlow, -⟩ := donor.2.2
    rw [copied.target, Pte.target_of_present hpres] at hf
    cases hf
    exact hlow
  | read _ _ _ fresh => exact hfresh fresh

theorem taskPage_inj (ho : o < 0x4000000) (ha : a < 0x4000000) :
    taskPage n o % 16384 = taskPage n a % 16384 ↔ taskPage n o = taskPage n a := by
  unfold taskPage
  omega

theorem demandPage_user (h : UserMem lo n t s) (ho : o < 0x4000000) :
    Post (demandPage file n t (t.startCode + o) s)
      (fun s' => UserMem lo n t s' ∧ KeepsBut n o o s s' ∧ (entry s' (taskPage n o)).present = true) Oom := by
  obtain ⟨own, hinv⟩ := h.inv
  have hstart := h.layout n t h.task
  rw [hstart]
  refine (demandPage_spec hinv h.layout h.slot h.task (by omega)).mono ?_ ?_
  · rintro s' ⟨hinv', hframe, hpres, hcase⟩
    rw [address_page] at hframe hpres hcase
    refine ⟨⟨⟨own, hinv'⟩, h.layout.same hframe.same, h.slot, ?_, ?_⟩, ?_, hpres⟩
    · rw [hframe.same.task, h.task]
    · intro p hp hslot f hf
      by_cases heq : p = taskPage n o
      · subst heq
        rcases hcase with ⟨-, rfl⟩ | ⟨-, hload⟩
        · exact h.main _ hp hslot f hf
        · exact hload.main f hf
      · rw [hframe.ref hp heq] at hf
        exact h.main p hp hslot f hf
    · intro o' ho' _ v hv
      by_cases heq : taskPage n o' = taskPage n o
      · rcases hcase with ⟨-, rfl⟩ | ⟨habs, -⟩
        · exact hv
        · have hpres' := present_of_byteAt hv
          rw [heq, habs] at hpres'
          cases hpres'
      · rw [byteAt_congr (hframe.seen _ (taskPage_mem h.slot ho') heq)]
        exact hv
  · rintro e ⟨s', he, -⟩
    exact ⟨s', he⟩

/-- The store itself changes the one byte. -/
theorem store_user (h : UserMem lo n t s) (ho : o < 0x4000000)
    (hpres : (entry s (taskPage n o)).present = true) :
    UserMem lo n t (s.store (t.startCode + o) v) ∧ byteAt (s.store (t.startCode + o) v) n o = some v ∧
      KeepsBut n o (o + 1) s (s.store (t.startCode + o) v) := by
  obtain ⟨own, hinv⟩ := h.inv
  have hp := taskPage_mem h.slot ho
  rw [h.layout n t h.task]
  rw [← address_page] at hp hpres
  obtain ⟨hinv', hsame, -⟩ := store_spec (v := v) hinv hp hpres
  have hent := entry_store (v := v) hinv hp hpres
  have hpage := page_store (s := s) (v := v) hp
  generalize s.store (n * 0x4000000 + o) v = s' at hinv' hsame hent hpage ⊢
  rw [address_page] at hp hpres hent hpage
  rw [show (n * 0x4000000 + o) % 4096 = o % 4096 by omega] at hpage
  have htgt : ∀ q, (entry s' q).target = (entry s q).target := by
    intro q
    rw [hent]
    by_cases hq : q = taskPage n o
    · rw [hq, Function.update_self, Pte.target_touched]
    · rw [Function.update_of_ne hq]
  have hframe := Pte.target_of_present hpres
  refine ⟨⟨⟨own, hinv'⟩, h.layout.same hsame, h.slot, ?_, ?_⟩, ?_, ?_⟩
  · rw [hsame.task, h.task]
  · intro p hpu hslot f hf
    rw [htgt] at hf
    exact h.main p hpu hslot f hf
  · refine byteAt_eq_some.mpr ⟨_, (htgt _).trans hframe, ?_⟩
    rw [hpage, Function.update_self, Function.update_self]
  · intro o' ho' hout w hw
    obtain ⟨f, hf, hwf⟩ := byteAt_eq_some.mp hw
    refine byteAt_eq_some.mpr ⟨f, (htgt _).trans hf, ?_⟩
    rw [hpage]
    by_cases heq : f = (entry s (taskPage n o)).frame
    · -- a frame is mapped at one offset only
      have hp' := taskPage_mem h.slot ho'
      rw [← heq] at hframe
      have hlow := h.main _ hp (taskPage_slot ho) f hframe
      have hoff := hinv.good.same_off _ hp' _ hp f hf hframe hlow
      have hpages := (taskPage_inj ho' ho).mp hoff
      have hmod : o' % 4096 ≠ o % 4096 := by
        unfold taskPage at hpages
        omega
      rw [← heq, Function.update_self, Function.update_of_ne hmod]
      exact hwf
    · rw [Function.update_of_ne heq]
      exact hwf

theorem putFsByte_user (h : UserMem lo n t s) (ho : o < 0x4000000) :
    Post (putFsByte file n t (t.startCode + o) v s)
      (fun s' => UserMem lo n t s' ∧ byteAt s' n o = some v ∧ KeepsBut n o (o + 1) s s') Oom := by
  refine Post.bind (demandPage_user h ho) ?_
  rintro s₁ ⟨h₁, hkeeps, hpres⟩
  obtain ⟨h₂, hbyte, hkeeps₂⟩ := store_user (v := v) h₁ ho hpres
  exact Post.ret ⟨h₂, hbyte, (hkeeps.mono le_rfl (Nat.le_succ o)).trans hkeeps₂⟩

theorem putBytes_user (hlim : t.dataLimit = 0x4000000) (bytes : List UInt8) : ∀ {o : Nat} {s : Mem},
    UserMem lo n t s → o + bytes.length ≤ 0x4000000 →
    Post (putBytes file n t o bytes s)
      (fun s' => UserMem lo n t s' ∧ Holds s' n o bytes ∧ KeepsBut n o (o + bytes.length) s s') Oom := by
  induction bytes with
  | nil => exact fun h _ => Post.ret ⟨h, Holds.nil, KeepsBut.refl⟩
  | cons b bytes ih =>
    intro o s h hfits
    rw [List.length_cons] at hfits
    rw [putBytes, if_neg (by omega)]
    refine Post.bind (putFsByte_user h (by omega)) ?_
    rintro s₁ ⟨h₁, hbyte, hkeeps₁⟩
    refine (ih h₁ (by omega)).imp ?_
    rintro s₂ ⟨h₂, hholds, hkeeps₂⟩
    refine ⟨h₂, Holds.cons.mpr ⟨hkeeps₂ o (by omega) (by omega) b hbyte, hholds⟩, ?_⟩
    rw [List.length_cons]
    exact (hkeeps₁.mono le_rfl (by omega)).trans (hkeeps₂.mono (by omega) (by omega))

theorem putFsLong_user {w : Nat} (hlim : t.dataLimit = 0x4000000) (h : UserMem lo n t s) (hfits : o + 4 ≤ 0x4000000) :
    Post (putFsLong file n t w o s)
      (fun s' => UserMem lo n t s' ∧ Holds s' n o (longBytes w) ∧ KeepsBut n o (o + 4) s s') Oom := by
  unfold putFsLong
  rw [if_neg (by omega)]
  exact putBytes_user hlim (longBytes w) h hfits

/-! ## Longs -/

/-- The `long` at `o`. -/
def readLong (B : Nat → UInt8) (o : Nat) : Nat :=
  (B o).toNat + 2 ^ 8 * (B (o + 1)).toNat + 2 ^ 16 * (B (o + 2)).toNat + 2 ^ 24 * (B (o + 3)).toNat

theorem readLong_eq {B : Nat → UInt8} {w : Nat} (hw : w < 2 ^ 32)
    (h : ∀ i (hi : i < (longBytes w).length), B (o + i) = (longBytes w)[i]) : readLong B o = w := by
  have hlen : (longBytes w).length = 4 := rfl
  have h0 : B o = UInt8.ofNat w := h 0 (by omega)
  have h1 : B (o + 1) = UInt8.ofNat (w / 2 ^ 8) := h 1 (by omega)
  have h2 : B (o + 2) = UInt8.ofNat (w / 2 ^ 16) := h 2 (by omega)
  have h3 : B (o + 3) = UInt8.ofNat (w / 2 ^ 24) := h 3 (by omega)
  unfold readLong
  rw [h0, h1, h2, h3]
  simp only [UInt8.toNat_ofNat']
  omega

end Linux011.Mm
