import Mathlib.Data.List.GetD
import Linux011.Malloc.Buckets

/-!
# The objects of the kernel allocator

`live` has the objects that `malloc` gave out and `free_s` did not take back, with the length each was
asked for. `Inv` says how the three kinds of lists hang together: the descriptors of each size (`use`),
the free descriptors (`spare`), and the free cells of each page. `tables` are the pages of the
descriptors.
-/

namespace Linux011.Malloc

open Linux011.Lib

variable {s s' : Heap} {live live' : Nat → Option Nat} {use : Nat → List Nat} {spare tables free : List Nat}
  {i j d e a b len page size count : Nat} {next : Nat → Option Nat} {last : Option Nat}

/-! ## Pages and cells -/

/-- What `get_free_page` gives. -/
def IsPage (p : Nat) : Prop := p % pageSize = 0 ∧ 0 < p ∧ p + pageSize ≤ 2 ^ 32

/-- The pages to come are in use by nobody. -/
def Fresh (given held : List Nat) : Prop := given.Nodup ∧ ∀ p ∈ given, IsPage p ∧ p ∉ held

/-- The size of a bucket. -/
def sizeOf (i : Nat) : Nat := sizes.getD i 0

/-- The cells of a page. -/
def cells (page size : Nat) : List Nat := (List.range (pageSize / size)).map fun k => page + k * size

/-- The bucket `malloc` takes for a length is the smallest one. -/
def Fits (len i : Nat) : Prop := i < sizes.length ∧ len ≤ sizeOf i ∧ ∀ j < i, sizeOf j < len

theorem sizeOf_spec : ∀ i < sizes.length, 16 ≤ sizeOf i ∧ sizeOf i % 16 = 0 ∧
    sizeOf i * (pageSize / sizeOf i) = pageSize := by decide

theorem mem_cells : a ∈ cells page size ↔ ∃ k < pageSize / size, a = page + k * size := by
  unfold cells
  simp only [List.mem_map, List.mem_range]
  exact ⟨fun ⟨k, hk, h⟩ => ⟨k, hk, h.symm⟩, fun ⟨k, hk, h⟩ => ⟨k, hk, h.symm⟩⟩

theorem length_cells (page size : Nat) : (cells page size).length = pageSize / size := by
  unfold cells
  rw [List.length_map, List.length_range]

theorem nodup_cells (hsize : 0 < size) (page : Nat) : (cells page size).Nodup := by
  apply List.Nodup.map _ List.nodup_range
  intro k k' h
  exact Nat.eq_of_mul_eq_mul_right hsize (Nat.add_left_cancel h)

/-- A cell lies in its page. -/
theorem cell_range (hi : i < sizes.length) (ha : a ∈ cells page (sizeOf i)) :
    page ≤ a ∧ a + sizeOf i ≤ page + pageSize := by
  obtain ⟨k, hk, rfl⟩ := mem_cells.mp ha
  obtain ⟨-, -, hfull⟩ := sizeOf_spec i hi
  have hle : (k + 1) * sizeOf i ≤ pageSize / sizeOf i * sizeOf i := Nat.mul_le_mul_right _ hk
  rw [Nat.mul_comm (pageSize / sizeOf i), hfull, Nat.succ_mul] at hle
  omega

theorem cell_aligned (hi : i < sizes.length) (hpage : IsPage page) (ha : a ∈ cells page (sizeOf i)) :
    a % 16 = 0 := by
  obtain ⟨k, -, rfl⟩ := mem_cells.mp ha
  obtain ⟨-, hsize, -⟩ := sizeOf_spec i hi
  have hcell : k * sizeOf i % 16 = 0 := Nat.mod_eq_zero_of_dvd
    (Nat.dvd_trans (Nat.dvd_of_mod_eq_zero hsize) (Nat.dvd_mul_left _ _))
  have hpage := hpage.1
  unfold pageSize at hpage
  omega

/-- `free_s` finds the page from the address. -/
theorem page_of_cell (hi : i < sizes.length) (hpage : IsPage page) (ha : a ∈ cells page (sizeOf i)) :
    a / pageSize * pageSize = page := by
  have hrange := cell_range hi ha
  have hsize := (sizeOf_spec i hi).1
  have hpage := hpage.1
  unfold pageSize at *
  omega

/-- The cells of a page do not overlap. -/
theorem cells_apart (ha : a ∈ cells page size) (hb : b ∈ cells page size) (hab : a ≠ b) :
    a + size ≤ b ∨ b + size ≤ a := by
  obtain ⟨k, -, rfl⟩ := mem_cells.mp ha
  obtain ⟨k', -, rfl⟩ := mem_cells.mp hb
  rcases Nat.lt_trichotomy k k' with hlt | heq | hlt
  · left
    have hle := Nat.mul_le_mul_right size hlt
    rw [Nat.succ_mul] at hle
    omega
  · exact absurd (by rw [heq]) hab
  · right
    have hle := Nat.mul_le_mul_right size hlt
    rw [Nat.succ_mul] at hle
    omega

/-- `malloc` finds the smallest bucket. -/
theorem findDir_some (h : sizes.findIdx? (fun size => decide (len ≤ size)) = some i) : Fits len i := by
  obtain ⟨hi, hlen, hbelow⟩ := List.findIdx?_eq_some_iff_getElem.mp h
  refine ⟨hi, ?_, fun j hj => ?_⟩
  · unfold sizeOf
    rw [List.getD_eq_getElem _ _ hi]
    simpa using hlen
  · unfold sizeOf
    rw [List.getD_eq_getElem _ _ (Nat.lt_trans hj hi)]
    simpa using hbelow j hj

theorem findDir_none (h : sizes.findIdx? (fun size => decide (len ≤ size)) = none) : pageSize < len := by
  have hall := List.findIdx?_eq_none_iff.mp h pageSize (by decide)
  simpa using hall

/-! ## Carving -/

theorem carve_of_ne (h : ∀ k ≤ count, b ≠ a + k * size) : carve size last count a next b = next b := by
  induction count generalizing a next with
  | zero =>
    apply Function.update_of_ne
    simpa using h 0 (Nat.le_refl 0)
  | succ count ih =>
    have hfirst : b ≠ a := by simpa using h 0 (Nat.zero_le _)
    show carve size last count (a + size) _ b = next b
    rw [ih, Function.update_of_ne hfirst]
    intro k hk
    have hne := h (k + 1) (Nat.succ_le_succ hk)
    rw [Nat.succ_mul] at hne
    omega

/-- The pieces become a chain in the order of their addresses, in front of the chain from `last`. -/
theorem carve_chain (hsize : 0 < size) {l : List Nat} (hl : Chain next last l)
    (hout : ∀ k ≤ count, a + k * size ∉ l) :
    Chain (carve size last count a next) (some a)
      ((List.range (count + 1)).map (fun k => a + k * size) ++ l) := by
  induction count generalizing a next with
  | zero =>
    have ha : a ∉ l := by simpa using hout 0 (Nat.le_refl 0)
    refine ⟨by simp, ?_⟩
    show Chain (Function.update next a last) (Function.update next a last (a + 0 * size)) l
    rw [Nat.zero_mul, Nat.add_zero, Function.update_self]
    exact hl.update_of_notMem ha
  | succ count ih =>
    have ha : a ∉ l := by simpa using hout 0 (Nat.zero_le _)
    have hrest := ih (a := a + size) (hl.update_of_notMem (v := some (a + size)) ha) (by
      intro k hk
      have hk := hout (k + 1) (Nat.succ_le_succ hk)
      rwa [Nat.succ_mul, Nat.add_comm (k * size), ← Nat.add_assoc] at hk)
    rw [List.range_succ_eq_map, List.map_cons, List.map_map]
    refine ⟨by simp, ?_⟩
    have hlink : carve size last (count + 1) a next a = some (a + size) := by
      show carve size last count (a + size) _ a = _
      rw [carve_of_ne, Function.update_self]
      intro k _
      omega
    have hcells : (List.range (count + 1)).map ((fun k => a + k * size) ∘ Nat.succ) =
        (List.range (count + 1)).map fun k => a + size + k * size := by
      apply List.map_congr_left
      intro k _
      show a + (k + 1) * size = a + size + k * size
      rw [Nat.succ_mul]
      omega
    rw [Nat.zero_mul, hcells]
    show Chain _ (carve size last (count + 1) a next a) (_ ++ l)
    rw [hlink]
    exact hrest

/-- A page that is carved is a chain of its cells. -/
theorem carve_cells (hsize : 0 < size) (hfull : 0 < pageSize / size) {l : List Nat} (hl : Chain next last l)
    (hout : ∀ a ∈ cells page size, a ∉ l) :
    Chain (carve size last (pageSize / size - 1) page next) (some page) (cells page size ++ l) := by
  have hcount : pageSize / size - 1 + 1 = pageSize / size := Nat.sub_add_cancel hfull
  unfold cells
  rw [← hcount]
  apply carve_chain hsize hl
  intro k hk
  exact hout _ (mem_cells.mpr ⟨k, by omega, rfl⟩)

theorem carve_outside (hfull : 0 < pageSize / size) (hb : b ∉ cells page size) :
    carve size last (pageSize / size - 1) page next b = next b := by
  apply carve_of_ne
  rintro k hk rfl
  exact hb (mem_cells.mpr ⟨k, by omega, rfl⟩)

end Linux011.Malloc
