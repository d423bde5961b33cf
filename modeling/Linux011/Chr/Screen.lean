import Mathlib.Algebra.Group.Nat.Defs
import Mathlib.Logic.Function.Basic

/-!
# The memory of the screen

What the string instructions of `kernel/chr_drv/console.c` do to the memory of the screen, which is one of
words. `stores` are the addresses of the words that were stored, the last one first.
-/

namespace Linux011.Chr

structure Screen where
  ram : Nat → BitVec 16
  stores : List Nat

/-- A difference of 32 bits. -/
def sub32 (a b : Nat) : Nat := (a + 2 ^ 32 - b) % 2 ^ 32

/-- A sum of 32 bits. -/
def add32 (a b : Nat) : Nat := (a + b) % 2 ^ 32

theorem sub32_of_le {a b : Nat} (h : b ≤ a) (ha : a < 2 ^ 32) : sub32 a b = a - b := by
  unfold sub32
  omega

namespace Screen

def store (a : Nat) (w : BitVec 16) (s : Screen) : Screen := ⟨Function.update s.ram a w, a :: s.stores⟩

/-- `rep stosw`, upwards. -/
def stosw (ax : BitVec 16) : (ecx edi : Nat) → Screen → Screen
  | 0, _, s => s
  | ecx + 1, edi, s => stosw ax ecx (edi + 2) (s.store edi ax)

/-- `rep stosw`, downwards. -/
def stoswStd (ax : BitVec 16) : (ecx edi : Nat) → Screen → Screen
  | 0, _, s => s
  | ecx + 1, edi, s => stoswStd ax ecx (sub32 edi 2) (s.store edi ax)

/-- One `movsl`. -/
def move (edi esi : Nat) (s : Screen) : Screen :=
  (s.store edi (s.ram esi)).store (edi + 2) (s.ram (esi + 2))

/-- `rep movsl`, upwards; it leaves `edi` behind the last word. -/
def movsl : (ecx edi esi : Nat) → Screen → Nat × Screen
  | 0, edi, _, s => (edi, s)
  | ecx + 1, edi, esi, s => movsl ecx (edi + 4) (esi + 4) (s.move edi esi)

/-- `rep movsl`, downwards. -/
def movslStd : (ecx edi esi : Nat) → Screen → Nat × Screen
  | 0, edi, _, s => (edi, s)
  | ecx + 1, edi, esi, s => movslStd ecx (sub32 edi 4) (sub32 esi 4) (s.move edi esi)

/-- The loop of `insert_char`. -/
def insertLoop : (rounds : Nat) → (old : BitVec 16) → (p : Nat) → Screen → Screen
  | 0, _, _, s => s
  | rounds + 1, old, p, s => insertLoop rounds (s.ram p) (p + 2) (s.store p old)

/-- The loop of `delete_char`, and the store behind it. -/
def deleteLoop (erase : BitVec 16) : (rounds p : Nat) → Screen → Screen
  | 0, p, s => s.store p erase
  | rounds + 1, p, s => deleteLoop erase rounds (p + 2) (s.store p (s.ram (p + 2)))

/-! ## Where the stores go -/

/-- All words stored lie from `lo` on and below `hi`. -/
def In (lo hi : Nat) (s : Screen) : Prop := ∀ a ∈ s.stores, lo ≤ a ∧ a + 2 ≤ hi

variable {lo hi a edi esi ecx : Nat} {w : BitVec 16} {s : Screen}

theorem In.store (h : s.In lo hi) (hlo : lo ≤ a) (hhi : a + 2 ≤ hi) : (s.store a w).In lo hi := by
  intro b hb
  rcases List.mem_cons.mp hb with rfl | hb
  · exact ⟨hlo, hhi⟩
  · exact h b hb

theorem In.move (h : s.In lo hi) (esi : Nat) (hlo : lo ≤ edi) (hhi : edi + 4 ≤ hi) : (s.move edi esi).In lo hi :=
  (h.store hlo (by omega)).store (by omega) hhi

theorem In.stosw (h : s.In lo hi) (hlo : lo ≤ edi) (hhi : edi + 2 * ecx ≤ hi) :
    (s.stosw w ecx edi).In lo hi := by
  induction ecx generalizing edi s with
  | zero => exact h
  | succ ecx ih =>
    apply ih (h.store hlo (by omega))
    · omega
    · omega

theorem In.stoswStd (h : s.In lo hi) (hlo : lo + 2 * ecx ≤ edi + 2) (hhi : edi + 2 ≤ hi) (hmax : hi ≤ 2 ^ 32) :
    (s.stoswStd w ecx edi).In lo hi := by
  induction ecx generalizing edi s with
  | zero => exact h
  | succ ecx ih =>
    have hstored := h.store (w := w) (show lo ≤ edi by omega) hhi
    cases ecx with
    | zero => exact hstored
    | succ ecx =>
      have hsub : sub32 edi 2 = edi - 2 := sub32_of_le (by omega) (by omega)
      apply ih hstored
      · rw [hsub]
        omega
      · rw [hsub]
        omega

theorem In.movsl (h : s.In lo hi) (esi : Nat) (hlo : lo ≤ edi) (hhi : edi + 4 * ecx ≤ hi) :
    (s.movsl ecx edi esi).1 = edi + 4 * ecx ∧ (s.movsl ecx edi esi).2.In lo hi := by
  induction ecx generalizing edi esi s with
  | zero => exact ⟨rfl, h⟩
  | succ ecx ih =>
    obtain ⟨hend, hin⟩ := ih (h.move esi hlo (by omega)) (esi + 4) (show lo ≤ edi + 4 by omega)
      (by omega)
    refine ⟨?_, hin⟩
    show (Screen.movsl ecx (edi + 4) (esi + 4) _).1 = _
    rw [hend]
    omega

/-- Downwards the first store is that of the highest double word. -/
theorem In.movslStd (h : s.In lo hi) (esi : Nat) (hlo : lo + 4 * ecx ≤ edi + 4) (hhi : edi + 4 ≤ hi) (hmax : hi ≤ 2 ^ 32)
    (hstart : 4 ≤ lo) :
    (s.movslStd ecx edi esi).1 = edi - 4 * ecx ∧ (s.movslStd ecx edi esi).2.In lo hi := by
  induction ecx generalizing edi esi s with
  | zero => exact ⟨rfl, h⟩
  | succ ecx ih =>
    have hmoved := h.move esi (show lo ≤ edi by omega) hhi
    have hsub : sub32 edi 4 = edi - 4 := sub32_of_le (by omega) (by omega)
    obtain ⟨hend, hin⟩ := ih hmoved (sub32 esi 4) (show lo + 4 * ecx ≤ sub32 edi 4 + 4 by omega)
      (by omega)
    refine ⟨?_, hin⟩
    show (Screen.movslStd ecx (sub32 edi 4) (sub32 esi 4) _).1 = _
    rw [hend, hsub]
    omega

theorem In.insertLoop {rounds p : Nat} (h : s.In lo hi) (hlo : lo ≤ p) (hhi : p + 2 * rounds ≤ hi) :
    (s.insertLoop rounds w p).In lo hi := by
  induction rounds generalizing p s w with
  | zero => exact h
  | succ rounds ih =>
    apply ih (h.store hlo (by omega))
    · omega
    · omega

theorem In.deleteLoop {rounds p : Nat} (h : s.In lo hi) (hlo : lo ≤ p) (hhi : p + 2 * rounds + 2 ≤ hi) :
    (s.deleteLoop w rounds p).In lo hi := by
  induction rounds generalizing p s with
  | zero => exact h.store hlo hhi
  | succ rounds ih =>
    apply ih (h.store hlo (by omega))
    · omega
    · omega

end Screen

end Linux011.Chr
