import Mathlib.Order.Interval.Finset.Nat
import Linux011.Lib.RefCount
import Linux011.Mm.Memory

/-!
# What the page tables say

`View` is the abstract state of the paging code: for every linear page of user space the entry that
maps it, for every directory slot its page table, and for every physical page how often it is
counted. `Good` is the invariant of the reference counts over this view, and every change the code
makes is composed of the eight below (`Good.alloc` … `Good.dropDir`). They are proved here once; the
code is shown to be made of them in `Mm.Invariant`.

A linear page is numbered by `address >> 12`; user space is everything from 64 MB up, sixteen
directory slots for each task.
-/

namespace Linux011.Mm

open Linux011.Lib

/-- The frame an entry refers to. -/
def Pte.target (e : Pte) : Option Nat := if e.present then some e.frame else none

@[simp] theorem Pte.target_zero : Pte.zero.target = none := rfl

@[simp] theorem Pte.target_user (f : Nat) : (Pte.user f).target = some f := rfl

@[simp] theorem Pte.target_readOnly (e : Pte) : e.readOnly.target = e.target := rfl

@[simp] theorem Pte.target_writable (e : Pte) : e.writable.target = e.target := rfl

@[simp] theorem Pte.target_touched (e : Pte) : e.touched.target = e.target := rfl

theorem Pte.target_eq_some {e : Pte} {f : Nat} :
    e.target = some f ↔ e.present = true ∧ e.frame = f := by
  unfold Pte.target
  split <;> simp_all

theorem Pte.target_of_present {e : Pte} (h : e.present = true) : e.target = some e.frame :=
  Pte.target_eq_some.mpr ⟨h, rfl⟩

theorem Pte.target_of_absent {e : Pte} (h : e.present = false) : e.target = none := by
  simp [Pte.target, h]

/-- The linear pages of user space. -/
def userPages : Finset Nat := Finset.Ico 16384 1048576

/-- The directory slots of user space. -/
def userDirs : Finset Nat := Finset.Ico 16 1024

@[simp] theorem mem_userPages {p : Nat} : p ∈ userPages ↔ 16384 ≤ p ∧ p < 1048576 :=
  Finset.mem_Ico

@[simp] theorem mem_userDirs {d : Nat} : d ∈ userDirs ↔ 16 ≤ d ∧ d < 1024 := Finset.mem_Ico

structure View where
  dir : Nat → Option Nat
  ent : Nat → Pte
  cnt : Nat → Nat
  own : Nat → Nat          -- kernel owners other than page tables

namespace View

def setEnt (V : View) (p : Nat) (e : Pte) : View := { V with ent := Function.update V.ent p e }

def setDir (V : View) (d : Nat) (t : Option Nat) : View :=
  { V with dir := Function.update V.dir d t }

def setCnt (V : View) (f : Nat) (n : Nat) : View := { V with cnt := Function.update V.cnt f n }

def setOwn (V : View) (f : Nat) (n : Nat) : View := { V with own := Function.update V.own f n }

/-- The frame mapped at each linear page. -/
def ref (V : View) (p : Nat) : Option Nat := (V.ent p).target

/-- How many user page-table entries point at `f`. -/
def pteRefs (V : View) (f : Nat) : Nat := refs userPages V.ref f

/-- How many directory entries use `f` as their page table. -/
def dirRefs (V : View) (f : Nat) : Nat := refs userDirs V.dir f

section simps
variable (V : View) (p d n : Nat) (e : Pte) (t : Option Nat) (f : Nat)

@[simp] theorem setEnt_dir : (V.setEnt p e).dir = V.dir := rfl
@[simp] theorem setEnt_cnt : (V.setEnt p e).cnt = V.cnt := rfl
@[simp] theorem setEnt_own : (V.setEnt p e).own = V.own := rfl
@[simp] theorem setEnt_ent : (V.setEnt p e).ent = Function.update V.ent p e := rfl
@[simp] theorem setDir_dir : (V.setDir d t).dir = Function.update V.dir d t := rfl
@[simp] theorem setDir_ent : (V.setDir d t).ent = V.ent := rfl
@[simp] theorem setDir_cnt : (V.setDir d t).cnt = V.cnt := rfl
@[simp] theorem setDir_own : (V.setDir d t).own = V.own := rfl
@[simp] theorem setCnt_dir : (V.setCnt f n).dir = V.dir := rfl
@[simp] theorem setCnt_ent : (V.setCnt f n).ent = V.ent := rfl
@[simp] theorem setCnt_cnt : (V.setCnt f n).cnt = Function.update V.cnt f n := rfl
@[simp] theorem setCnt_own : (V.setCnt f n).own = V.own := rfl
@[simp] theorem setOwn_dir : (V.setOwn f n).dir = V.dir := rfl
@[simp] theorem setOwn_ent : (V.setOwn f n).ent = V.ent := rfl
@[simp] theorem setOwn_cnt : (V.setOwn f n).cnt = V.cnt := rfl
@[simp] theorem setOwn_own : (V.setOwn f n).own = Function.update V.own f n := rfl
@[simp] theorem setDir_ref : (V.setDir d t).ref = V.ref := rfl
@[simp] theorem setCnt_ref : (V.setCnt f n).ref = V.ref := rfl
@[simp] theorem setOwn_ref : (V.setOwn f n).ref = V.ref := rfl

@[simp] theorem setEnt_ref : (V.setEnt p e).ref = Function.update V.ref p e.target := by
  funext q
  by_cases h : q = p
  · subst h; simp [ref]
  · simp [ref, Function.update_of_ne h]

end simps

end View

/-- The invariant of the paging code over main memory `[lo, hi)`. -/
structure Good (lo hi : Nat) (V : View) : Prop where
  dir_main : ∀ d ∈ userDirs, ∀ t, V.dir d = some t → lo ≤ t ∧ t < hi
  ent_dir : ∀ p ∈ userPages, (V.ent p).present → V.dir (p / 1024) ≠ none
  ent_frame : ∀ p ∈ userPages, ∀ f, V.ref p = some f → f < lowMem ∨ lo ≤ f ∧ f < hi
  low_ro : ∀ p ∈ userPages, ∀ f, V.ref p = some f → f < lowMem → (V.ent p).rw = false
  same_off : ∀ p ∈ userPages, ∀ q ∈ userPages, ∀ f, V.ref p = some f → V.ref q = some f →
    lowMem ≤ f → p % 16384 = q % 16384
  shared_ro : ∀ p ∈ userPages, ∀ q ∈ userPages, ∀ f, V.ref p = some f → V.ref q = some f →
    lowMem ≤ f → p ≠ q → (V.ent p).rw = false
  count : ∀ f, lo ≤ f → f < hi → V.cnt f = V.pteRefs f + V.dirRefs f + V.own f
  one_owner : ∀ f, lo ≤ f → f < hi → V.dirRefs f + V.own f ≤ 1
  one_role : ∀ f, lo ≤ f → f < hi → 0 < V.dirRefs f + V.own f → V.pteRefs f = 0

namespace Good

variable {lo hi : Nat} {V : View} {f : Nat} {p q d : Nat}

theorem dir_inj (h : Good lo hi V) {t : Nat} (hd : d ∈ userDirs) {d' : Nat} (hd' : d' ∈ userDirs)
    (ht : V.dir d = some t) (ht' : V.dir d' = some t) : d = d' := by
  obtain ⟨h1, h2⟩ := h.dir_main d hd t ht
  by_contra hne
  have h2' : 2 ≤ V.dirRefs t := two_le_refs_iff.mpr ⟨d, hd, d', hd', hne, ht, ht'⟩
  have := h.one_owner t h1 h2
  omega

/-- A page that maps `f` is told from the others by its task, so `f` is mapped at most 64 times. -/
theorem pteRefs_le (h : Good lo hi V) (hf : lowMem ≤ f) : V.pteRefs f ≤ 64 := by
  apply refs_le_of_injOn (fun p => p / 16384)
  · intro p hp _
    rw [mem_userPages] at hp
    omega
  · intro p hp q hq hrp hrq heq
    have hoff := h.same_off p hp q hq f hrp hrq hf
    have htask : p / 16384 = q / 16384 := heq
    omega

theorem cnt_le (h : Good lo hi V) (hlo : lowMem ≤ lo) (h1 : lo ≤ f) (h2 : f < hi) :
    V.cnt f ≤ 64 := by
  have hc := h.count f h1 h2
  have hle := h.pteRefs_le (Nat.le_trans hlo h1)
  have h1' := h.one_owner f h1 h2
  have hr := h.one_role f h1 h2
  omega

theorem cnt_pos_of_ref (h : Good lo hi V) (hp : p ∈ userPages) (hr : V.ref p = some f)
    (h1 : lo ≤ f) (h2 : f < hi) : 0 < V.cnt f := by
  have hpos : 0 < V.pteRefs f := refs_pos_iff.mpr ⟨p, hp, hr⟩
  have := h.count f h1 h2
  omega

/-- A mapped page is no page table and has no kernel owner. -/
theorem no_owner_of_ref (h : Good lo hi V) (hp : p ∈ userPages) (hr : V.ref p = some f)
    (h1 : lo ≤ f) (h2 : f < hi) : V.dirRefs f = 0 ∧ V.own f = 0 := by
  have hpos : 0 < V.pteRefs f := refs_pos_iff.mpr ⟨p, hp, hr⟩
  have := h.one_role f h1 h2
  omega

/-- A page counted once and mapped at `p` is mapped nowhere else. -/
theorem eq_of_cnt_eq_one (h : Good lo hi V) (hp : p ∈ userPages) (hq : q ∈ userPages)
    (hrp : V.ref p = some f) (hrq : V.ref q = some f) (h1 : lo ≤ f) (h2 : f < hi)
    (hc : V.cnt f = 1) : p = q := by
  have hpos : 0 < V.pteRefs f := refs_pos_iff.mpr ⟨p, hp, hrp⟩
  have hcount := h.count f h1 h2
  exact eq_of_refs_eq_one (by unfold View.pteRefs at *; omega) hp hq hrp hrq

/-- An owned page is mapped nowhere. -/
theorem unmapped_of_own (h : Good lo hi V) (h1 : lo ≤ f) (h2 : f < hi) (ho : V.own f = 1)
    (hp : p ∈ userPages) : V.ref p ≠ some f := by
  intro hr
  have := (h.no_owner_of_ref hp hr h1 h2).2
  omega

theorem free_page (h : Good lo hi V) (h1 : lo ≤ f) (h2 : f < hi) (hc : V.cnt f = 0) :
    V.pteRefs f = 0 ∧ V.dirRefs f = 0 ∧ V.own f = 0 := by
  have := h.count f h1 h2
  omega

/-! ### The eight changes -/

theorem alloc (h : Good lo hi V) (h1 : lo ≤ f) (h2 : f < hi) (hc : V.cnt f = 0) :
    Good lo hi ((V.setCnt f 1).setOwn f 1) := by
  obtain ⟨hp0, hd0, ho0⟩ := h.free_page h1 h2 hc
  refine ⟨h.dir_main, h.ent_dir, h.ent_frame, h.low_ro, h.same_off, h.shared_ro, ?_, ?_, ?_⟩
  all_goals
    intro g hg1 hg2
    by_cases hgf : g = f
    · subst hgf
      simp only [View.pteRefs, View.dirRefs] at hp0 hd0
      simp [View.pteRefs, View.dirRefs, hp0, hd0]
    · have hc := h.count g hg1 hg2
      have ho := h.one_owner g hg1 hg2
      have hr := h.one_role g hg1 hg2
      simp only [View.pteRefs, View.dirRefs] at hc ho hr
      simp [View.pteRefs, View.dirRefs, Function.update_of_ne hgf]
      omega

theorem release (h : Good lo hi V) (h1 : lo ≤ f) (h2 : f < hi) (ho1 : V.own f = 1) :
    Good lo hi ((V.setCnt f (V.cnt f - 1)).setOwn f 0) := by
  refine ⟨h.dir_main, h.ent_dir, h.ent_frame, h.low_ro, h.same_off, h.shared_ro, ?_, ?_, ?_⟩
  all_goals
    intro g hg1 hg2
    have hc := h.count g hg1 hg2
    have ho := h.one_owner g hg1 hg2
    have hr := h.one_role g hg1 hg2
    simp only [View.pteRefs, View.dirRefs] at hc ho hr
    by_cases hgf : g = f
    · subst hgf
      simp [View.pteRefs, View.dirRefs]
      omega
    · simp [View.pteRefs, View.dirRefs, Function.update_of_ne hgf]
      omega

/-- An owned page becomes the page table of an empty directory slot. -/
theorem install (h : Good lo hi V) (h1 : lo ≤ f) (h2 : f < hi) (ho1 : V.own f = 1)
    (hd : d ∈ userDirs) (hdir : V.dir d = none) :
    Good lo hi ((V.setDir d (some f)).setOwn f 0) := by
  have hupd : ∀ g, refs userDirs (Function.update V.dir d (some f)) g
      = refs userDirs V.dir g + (if f = g then 1 else 0) := by
    intro g
    have := refs_update (r := V.dir) (v := some f) (f := g) hd
    simpa [hdir] using this
  refine ⟨?_, ?_, h.ent_frame, h.low_ro, h.same_off, h.shared_ro, ?_, ?_, ?_⟩
  · intro d' hd' t ht
    by_cases hdd : d' = d
    · subst hdd; simp at ht; omega
    · simp [Function.update_of_ne hdd] at ht
      exact h.dir_main d' hd' t ht
  · intro p hp hpres
    by_cases hdd : p / 1024 = d
    · simp [hdd]
    · simpa [Function.update_of_ne hdd] using h.ent_dir p hp hpres
  all_goals
    intro g hg1 hg2
    have hc := h.count g hg1 hg2
    have ho := h.one_owner g hg1 hg2
    have hr := h.one_role g hg1 hg2
    simp only [View.pteRefs, View.dirRefs] at hc ho hr
    by_cases hgf : g = f
    · subst hgf
      simp [View.pteRefs, View.dirRefs, hupd]
      omega
    · simp [View.pteRefs, View.dirRefs, hupd, Function.update_of_ne hgf, Ne.symm hgf]
      omega

/-- The counting part of every change of a single entry: `f` is the frame of the new entry. -/
theorem pteRefs_setEnt (hp : p ∈ userPages) {e : Pte} (g : Nat) :
    (V.setEnt p e).pteRefs g + (if V.ref p = some g then 1 else 0)
      = V.pteRefs g + (if e.target = some g then 1 else 0) := by
  simp only [View.pteRefs, View.setEnt_ref]
  exact refs_update hp

/-- An owned page is mapped, writable, at an absent entry. -/
theorem mapFresh (h : Good lo hi V) (hlo : lowMem ≤ lo) (h1 : lo ≤ f) (h2 : f < hi)
    (ho1 : V.own f = 1) (hp : p ∈ userPages) (habs : V.ref p = none)
    (hdir : V.dir (p / 1024) ≠ none) :
    Good lo hi ((V.setEnt p (Pte.user f)).setOwn f 0) := by
  have hun : ∀ q ∈ userPages, V.ref q ≠ some f := fun q hq => h.unmapped_of_own h1 h2 ho1 hq
  have hcnt := fun g => pteRefs_setEnt (V := V) hp (e := Pte.user f) g
  refine ⟨h.dir_main, ?_, ?_, ?_, ?_, ?_, ?_, ?_, ?_⟩
  · intro q hq hpres
    by_cases hqp : q = p
    · subst hqp; simpa using hdir
    · simp [Function.update_of_ne hqp] at hpres
      exact h.ent_dir q hq hpres
  · intro q hq g hg
    by_cases hqp : q = p
    · subst hqp; simp at hg; omega
    · simp [Function.update_of_ne hqp] at hg
      exact h.ent_frame q hq g hg
  · intro q hq g hg hlow
    by_cases hqp : q = p
    · subst hqp; simp at hg; omega
    · simp [Function.update_of_ne hqp] at hg ⊢
      exact h.low_ro q hq g hg hlow
  · intro q hq q' hq' g hg hg' hlow
    by_cases hqp : q = p <;> by_cases hqp' : q' = p
    · rw [hqp, hqp']
    · subst hqp
      simp [Function.update_of_ne hqp'] at hg hg'
      exact absurd (hg ▸ hg') (hun q' hq')
    · subst hqp'
      simp [Function.update_of_ne hqp] at hg hg'
      exact absurd (hg' ▸ hg) (hun q hq)
    · simp [Function.update_of_ne hqp, Function.update_of_ne hqp'] at hg hg'
      exact h.same_off q hq q' hq' g hg hg' hlow
  · intro q hq q' hq' g hg hg' hlow hne
    by_cases hqp : q = p
    · subst hqp
      simp [Function.update_of_ne (Ne.symm hne)] at hg hg'
      exact absurd (hg ▸ hg') (hun q' hq')
    · by_cases hqp' : q' = p
      · subst hqp'
        simp [Function.update_of_ne hqp] at hg hg'
        exact absurd (hg' ▸ hg) (hun q hq)
      · simp [Function.update_of_ne hqp, Function.update_of_ne hqp'] at hg hg' ⊢
        exact h.shared_ro q hq q' hq' g hg hg' hlow hne
  all_goals
    intro g hg1 hg2
    have hc := h.count g hg1 hg2
    have ho := h.one_owner g hg1 hg2
    have hr := h.one_role g hg1 hg2
    have hg := hcnt g
    simp only [View.pteRefs, View.dirRefs, habs, View.setEnt_ref, Pte.target_user] at hc ho hr hg
    by_cases hgf : g = f
    · subst hgf
      simp at hg
      simp [View.pteRefs, View.dirRefs]
      omega
    · simp [Ne.symm hgf] at hg
      simp [View.pteRefs, View.dirRefs, Function.update_of_ne hgf]
      omega

/-- New permission or dirty bits for the frame an entry already maps. Write permission is granted
only to the single user of a page. -/
theorem flags (h : Good lo hi V) (hlo : lowMem ≤ lo) (hp : p ∈ userPages) {e : Pte}
    (htgt : e.target = V.ref p)
    (hrw : e.rw = true → (V.ent p).rw = true ∨ ∃ f, V.ref p = some f ∧ lo ≤ f ∧ f < hi ∧ V.cnt f = 1) :
    Good lo hi (V.setEnt p e) := by
  have hrefs : (V.setEnt p e).ref = V.ref := by
    rw [View.setEnt_ref, htgt, Function.update_eq_self]
  have hpres : e.present = (V.ent p).present := by
    have ht : e.target = (V.ent p).target := htgt
    cases he : e.present <;> cases hv : (V.ent p).present <;>
      simp [Pte.target, he, hv] at ht ⊢
  refine ⟨h.dir_main, ?_, ?_, ?_, ?_, ?_, ?_, ?_, ?_⟩
  · intro q hq hqp
    by_cases hqe : q = p
    · subst hqe
      simp [hpres] at hqp
      exact h.ent_dir q hq hqp
    · simp [Function.update_of_ne hqe] at hqp
      exact h.ent_dir q hq hqp
  · rw [hrefs]; exact h.ent_frame
  · rw [hrefs]
    intro q hq f hf hlow
    have hro := h.low_ro q hq f hf hlow
    by_cases hqe : q = p
    · subst hqe
      simp only [View.setEnt_ent, Function.update_self]
      by_contra hw
      rcases hrw (by simpa using hw) with hold | ⟨f', hf', hf1, -, -⟩
      · rw [hro] at hold; exact absurd hold (by decide)
      · rw [hf] at hf'
        cases hf'
        omega
    · simpa [Function.update_of_ne hqe] using hro
  · rw [hrefs]; exact h.same_off
  · rw [hrefs]
    intro q hq q' hq' f hf hf' hlow hne
    have hro := h.shared_ro q hq q' hq' f hf hf' hlow hne
    by_cases hqe : q = p
    · subst hqe
      simp only [View.setEnt_ent, Function.update_self]
      by_contra hw
      rcases hrw (by simpa using hw) with hold | ⟨f', hff, hf1, hf2, hc⟩
      · rw [hro] at hold; exact absurd hold (by decide)
      · rw [hf] at hff
        cases hff
        exact hne (h.eq_of_cnt_eq_one hq hq' hf hf' hf1 hf2 hc)
    · simpa [Function.update_of_ne hqe] using hro
  · intro f hf1 hf2
    show V.cnt f = refs userPages (V.setEnt p e).ref f + V.dirRefs f + V.own f
    rw [hrefs]; exact h.count f hf1 hf2
  · exact h.one_owner
  · intro f hf1 hf2 hpos
    show refs userPages (V.setEnt p e).ref f = 0
    rw [hrefs]; exact h.one_role f hf1 hf2 hpos

/-- Where an entry now refers to `f`, a reference is this one or an old one. -/
theorem ref_update_cases {e : Pte} (het : e.target = some f) {r g : Nat}
    (hg : Function.update V.ref q e.target r = some g) : (r = q ∧ g = f) ∨ (r ≠ q ∧ V.ref r = some g) := by
  by_cases hrq : r = q
  · subst hrq
    rw [Function.update_self, het] at hg
    exact Or.inl ⟨rfl, (Option.some.inj hg).symm⟩
  · rw [Function.update_of_ne hrq] at hg
    exact Or.inr ⟨hrq, hg⟩

/-- An absent entry becomes one more read-only reference to a page of main memory that is mapped,
read-only, at the same offset of other tasks. -/
theorem attach (h : Good lo hi V) (hlo : lowMem ≤ lo) (hp : p ∈ userPages) (hq : q ∈ userPages)
    (hrp : V.ref p = some f) (h1 : lo ≤ f) (h2 : f < hi)
    (hall : ∀ r ∈ userPages, V.ref r = some f → (V.ent r).rw = false)
    (habs : V.ref q = none) (hdir : V.dir (q / 1024) ≠ none) (hoff : p % 16384 = q % 16384)
    {e : Pte} (het : e.target = some f) (hro : e.rw = false) :
    Good lo hi ((V.setEnt q e).setCnt f (V.cnt f + 1)) := by
  have hcnt := fun g => pteRefs_setEnt (V := V) hq (e := e) g
  obtain ⟨hd0, ho0⟩ := h.no_owner_of_ref hp hrp h1 h2
  refine ⟨h.dir_main, ?_, ?_, ?_, ?_, ?_, ?_, ?_, ?_⟩
  · intro r hr hpres
    by_cases hrq : r = q
    · subst hrq; simpa using hdir
    · simp [Function.update_of_ne hrq] at hpres
      exact h.ent_dir r hr hpres
  · intro r hr g hg
    simp only [View.setCnt_ref, View.setEnt_ref] at hg
    rcases ref_update_cases het hg with ⟨-, rfl⟩ | ⟨-, hg'⟩
    · exact Or.inr ⟨h1, h2⟩
    · exact h.ent_frame r hr g hg'
  · intro r hr g hg hlow
    simp only [View.setCnt_ref, View.setEnt_ref] at hg
    rcases ref_update_cases het hg with ⟨-, rfl⟩ | ⟨hrq, hg'⟩
    · omega
    · simpa [Function.update_of_ne hrq] using h.low_ro r hr g hg' hlow
  · intro r hr r' hr' g hg hg' hlow
    simp only [View.setCnt_ref, View.setEnt_ref] at hg hg'
    rcases ref_update_cases het hg with ⟨rfl, rfl⟩ | ⟨-, hg1⟩ <;>
      rcases ref_update_cases het hg' with ⟨rfl, hgf⟩ | ⟨-, hg2⟩
    · rfl
    · have := h.same_off p hp r' hr' _ hrp hg2 hlow
      omega
    · subst hgf
      have := h.same_off p hp r hr _ hrp hg1 hlow
      omega
    · exact h.same_off r hr r' hr' g hg1 hg2 hlow
  · intro r hr r' hr' g hg hg' hlow hne
    simp only [View.setCnt_ref, View.setEnt_ref] at hg hg'
    rcases ref_update_cases het hg with ⟨rfl, rfl⟩ | ⟨hrq, hg1⟩
    · simpa using hro
    · have hsame : (((V.setEnt q e).setCnt f (V.cnt f + 1)).ent r) = V.ent r := by
        simp [Function.update_of_ne hrq]
      rw [hsame]
      rcases ref_update_cases het hg' with ⟨rfl, rfl⟩ | ⟨-, hg2⟩
      · exact hall r hr hg1
      · exact h.shared_ro r hr r' hr' g hg1 hg2 hlow hne
  -- What is left are sums: only `f` gets a reference, and its count grows by it.
  all_goals
    intro g hg1 hg2
    have hc := h.count g hg1 hg2
    have ho := h.one_owner g hg1 hg2
    have hr := h.one_role g hg1 hg2
    have hg := hcnt g
    simp only [View.pteRefs, View.dirRefs, habs, View.setEnt_ref, het] at hc ho hr hg hd0
    by_cases hgf : g = f
    · subst hgf
      simp at hg
      simp [View.pteRefs, View.dirRefs, het]
      omega
    · simp [Ne.symm hgf] at hg
      simp [View.pteRefs, View.dirRefs, het, Function.update_of_ne hgf]
      omega

/-- An absent entry becomes a read-only reference to a page below `LOW_MEM`, which is not counted. -/
theorem attachLow (h : Good lo hi V) (hlo : lowMem ≤ lo) (hq : q ∈ userPages)
    (habs : V.ref q = none) (hdir : V.dir (q / 1024) ≠ none)
    {e : Pte} (het : e.target = some f) (hlow : f < lowMem) (hro : e.rw = false) :
    Good lo hi (V.setEnt q e) := by
  have hcnt := fun g => pteRefs_setEnt (V := V) hq (e := e) g
  refine ⟨h.dir_main, ?_, ?_, ?_, ?_, ?_, ?_, ?_, ?_⟩
  · intro r hr hpres
    by_cases hrq : r = q
    · subst hrq; simpa using hdir
    · simp [Function.update_of_ne hrq] at hpres
      exact h.ent_dir r hr hpres
  · intro r hr g hg
    rw [View.setEnt_ref] at hg
    rcases ref_update_cases het hg with ⟨-, rfl⟩ | ⟨-, hg'⟩
    · exact Or.inl hlow
    · exact h.ent_frame r hr g hg'
  · intro r hr g hg hglow
    rw [View.setEnt_ref] at hg
    rcases ref_update_cases het hg with ⟨rfl, rfl⟩ | ⟨hrq, hg'⟩
    · simpa using hro
    · simpa [Function.update_of_ne hrq] using h.low_ro r hr g hg' hglow
  · intro r hr r' hr' g hg hg' hmain
    rw [View.setEnt_ref] at hg hg'
    rcases ref_update_cases het hg with ⟨-, rfl⟩ | ⟨-, hg1⟩
    · omega
    · rcases ref_update_cases het hg' with ⟨-, rfl⟩ | ⟨-, hg2⟩
      · omega
      · exact h.same_off r hr r' hr' g hg1 hg2 hmain
  · intro r hr r' hr' g hg hg' hmain hne
    rw [View.setEnt_ref] at hg hg'
    rcases ref_update_cases het hg with ⟨-, rfl⟩ | ⟨hrq, hg1⟩
    · omega
    · rcases ref_update_cases het hg' with ⟨-, rfl⟩ | ⟨-, hg2⟩
      · omega
      · simpa [Function.update_of_ne hrq] using h.shared_ro r hr r' hr' g hg1 hg2 hmain hne
  all_goals
    intro g hg1 hg2
    have hc := h.count g hg1 hg2
    have ho := h.one_owner g hg1 hg2
    have hr := h.one_role g hg1 hg2
    have hg := hcnt g
    have hgf : ¬ f = g := by omega
    simp only [View.pteRefs, View.dirRefs, habs, View.setEnt_ref, het] at hc ho hr hg
    simp [hgf] at hg
    simp [View.pteRefs, View.dirRefs, het]
    omega

/-- An entry is cleared; a page of main memory loses one reference. -/
theorem unmap (h : Good lo hi V) (hlo : lowMem ≤ lo) (hp : p ∈ userPages) (hrp : V.ref p = some f) :
    Good lo hi ((V.setCnt f (if lowMem ≤ f then V.cnt f - 1 else V.cnt f)).setEnt p Pte.zero) := by
  have hcnt := fun g => pteRefs_setEnt (V := V) hp (e := Pte.zero) g
  have href : ∀ r, ∀ g, Function.update V.ref p none r = some g → r ≠ p ∧ V.ref r = some g := by
    intro r g hg
    by_cases hrq : r = p
    · subst hrq; simp at hg
    · rw [Function.update_of_ne hrq] at hg
      exact ⟨hrq, hg⟩
  have hent : ∀ r, r ≠ p → Function.update V.ent p Pte.zero r = V.ent r :=
    fun r hr => Function.update_of_ne hr _ _
  refine ⟨h.dir_main, ?_, ?_, ?_, ?_, ?_, ?_, ?_, ?_⟩
  · intro r hr hpres
    by_cases hrq : r = p
    · subst hrq; simp [Pte.zero] at hpres
    · simp [Function.update_of_ne hrq] at hpres
      exact h.ent_dir r hr hpres
  · intro r hr g hg
    obtain ⟨-, hg'⟩ := href r g (by simpa using hg)
    exact h.ent_frame r hr g hg'
  · intro r hr g hg hlow
    obtain ⟨hne, hg'⟩ := href r g (by simpa using hg)
    simpa [hent r hne] using h.low_ro r hr g hg' hlow
  · intro r hr r' hr' g hg hg' hmain
    obtain ⟨-, hg1⟩ := href r g (by simpa using hg)
    obtain ⟨-, hg2⟩ := href r' g (by simpa using hg')
    exact h.same_off r hr r' hr' g hg1 hg2 hmain
  · intro r hr r' hr' g hg hg' hmain hne
    obtain ⟨hne1, hg1⟩ := href r g (by simpa using hg)
    obtain ⟨-, hg2⟩ := href r' g (by simpa using hg')
    simpa [hent r hne1] using h.shared_ro r hr r' hr' g hg1 hg2 hmain hne
  all_goals
    intro g hg1 hg2
    have hc := h.count g hg1 hg2
    have ho := h.one_owner g hg1 hg2
    have hr := h.one_role g hg1 hg2
    have hg := hcnt g
    simp only [View.pteRefs, View.dirRefs, hrp, View.setEnt_ref, Pte.target_zero] at hc ho hr hg
    by_cases hgf : g = f
    · subst hgf
      have hmain : lowMem ≤ g := by omega
      simp at hg
      simp [View.pteRefs, View.dirRefs, hmain]
      omega
    · simp [Ne.symm hgf] at hg
      simp [View.pteRefs, View.dirRefs, Function.update_of_ne hgf]
      omega

/-- The page table of an emptied directory slot is given back. -/
theorem dropDir (h : Good lo hi V) (hd : d ∈ userDirs) {t : Nat} (hdir : V.dir d = some t)
    (hempty : ∀ p ∈ userPages, p / 1024 = d → V.ref p = none) :
    Good lo hi ((V.setCnt t (V.cnt t - 1)).setDir d none) := by
  obtain ⟨h1, h2⟩ := h.dir_main d hd t hdir
  have hupd : ∀ g, refs userDirs (Function.update V.dir d none) g + (if t = g then 1 else 0)
      = refs userDirs V.dir g := by
    intro g
    have := refs_update (r := V.dir) (v := none) (f := g) hd
    simpa [hdir] using this
  refine ⟨?_, ?_, h.ent_frame, h.low_ro, h.same_off, h.shared_ro, ?_, ?_, ?_⟩
  · intro d' hd' t' ht
    by_cases hdd : d' = d
    · subst hdd; simp at ht
    · simp [Function.update_of_ne hdd] at ht
      exact h.dir_main d' hd' t' ht
  · intro p hp hpres
    by_cases hdd : p / 1024 = d
    · have hnone : (V.ent p).target = none := hempty p hp hdd
      have hsome := Pte.target_of_present (e := V.ent p) (by simpa using hpres)
      rw [hnone] at hsome
      exact absurd hsome (by simp)
    · simpa [Function.update_of_ne hdd] using h.ent_dir p hp (by simpa using hpres)
  all_goals
    intro g hg1 hg2
    have hc := h.count g hg1 hg2
    have ho := h.one_owner g hg1 hg2
    have hr := h.one_role g hg1 hg2
    have hu := hupd g
    simp only [View.pteRefs, View.dirRefs] at hc ho hr
    by_cases hgf : g = t
    · subst hgf
      simp at hu
      simp [View.pteRefs, View.dirRefs]
      omega
    · simp [Ne.symm hgf] at hu
      simp [View.pteRefs, View.dirRefs, Function.update_of_ne hgf]
      omega

end Good

end Linux011.Mm
