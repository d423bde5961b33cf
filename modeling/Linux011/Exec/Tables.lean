import Linux011.Exec.Stack
import Linux011.Mm.Lifecycle

/-!
# The tables of a new program

`create_tables` finds the strings by their zeros. What it builds is read back: `Decodes` says what a program
finds at its stack pointer.
-/

namespace Linux011.Exec

open Linux011.Lib Linux011.Mm

/-- A copy of `c` lies at `a`. -/
def StringAt (B : Nat → UInt8) (a : Nat) (c : CStr) : Prop := ∀ i (h : i < c.laid.length), B (a + i) = c.laid[i]

/-- At `v` lie pointers to copies of `strs` that follow one another from `first` on, and after them `NULL`. -/
structure PointsTo (B : Nat → UInt8) (v first : Nat) (strs : List CStr) : Prop where
  ptr : ∀ i < strs.length, readLong B (v + 4 * i) = first + (flat (strs.take i)).length
  str : ∀ i (h : i < strs.length), StringAt B (readLong B (v + 4 * i)) strs[i]
  null : readLong B (v + 4 * strs.length) = 0

/-- The stack at `sp` holds `args` and `env`, with the strings from `p` on. -/
structure Decodes (B : Nat → UInt8) (sp p : Nat) (args env : List CStr) : Prop where
  argc : readLong B sp = args.length
  argv : PointsTo B (readLong B (sp + 4)) p args
  envp : PointsTo B (readLong B (sp + 8)) (p + (flat args).length) env
  tables : readLong B (sp + 4) = sp + 12 ∧ readLong B (sp + 8) = sp + 12 + 4 * (args.length + 1)
  apart : sp + 12 + 4 * (args.length + 1) + 4 * (env.length + 1) ≤ p
  top : p + (flat args).length + (flat env).length ≤ 0x4000000

/-- The pointers to strings that follow one another, and the `NULL`. -/
def pointers : (p : Nat) → List CStr → List Nat
  | _, [] => [0]
  | p, c :: cs => p :: pointers (p + c.laid.length) cs

def longs (ws : List Nat) : List UInt8 := ws.flatMap longBytes

/-- What `create_tables` stores, from the stack pointer up. -/
def tables (p : Nat) (args env : List CStr) : List Nat :=
  let sp := p / 4 * 4 - 4 * (env.length + 1) - 4 * (args.length + 1) - 12
  [args.length, sp + 12, sp + 12 + 4 * (args.length + 1)] ++ pointers p args ++
    pointers (p + (flat args).length) env

theorem flat_cons {c : CStr} {cs : List CStr} : flat (c :: cs) = c.laid ++ flat cs := List.flatMap_cons

theorem flat_append {as bs : List CStr} : flat (as ++ bs) = flat as ++ flat bs := List.flatMap_append

theorem length_le_flat (cs : List CStr) : cs.length ≤ (flat cs).length := by
  induction cs with
  | nil => exact Nat.zero_le _
  | cons c cs ih =>
    rw [flat_cons, List.length_append, CStr.laid, List.length_append, List.length_singleton, List.length_cons]
    omega

theorem longs_length (ws : List Nat) : (longs ws).length = 4 * ws.length := by
  induction ws with
  | nil => rfl
  | cons w ws ih =>
    rw [longs, List.flatMap_cons, List.length_append, List.length_cons]
    change 4 + (longs ws).length = _
    omega

theorem pointers_length (args : List CStr) : ∀ p, (pointers p args).length = args.length + 1 := by
  induction args with
  | nil => exact fun _ => rfl
  | cons c cs ih => exact fun p => by rw [pointers, List.length_cons, ih, List.length_cons]

/-! ## Reading and storing -/

variable {file : ExeFile} {lo n p : Nat} {t : Task} {s : Mem}

theorem getFsByte_held {o : Nat} {v : UInt8} (hlim : t.dataLimit = 0x4000000) (h : UserMem lo n t s)
    (ho : o < 0x4000000) (hv : byteAt s n o = some v) : getFsByte file n t o s = .ok (v, s) := by
  have hp := taskPage_mem h.slot ho
  have hpres := present_of_byteAt hv
  obtain ⟨f, hf, hbyte⟩ := byteAt_eq_some.mp hv
  have hwalk : walk s (t.startCode + o) = entry s (taskPage n o) := by
    rw [h.layout n t h.task, walk_eq (by rwa [address_page]), address_page]
  have hdemand : demandPage file n t (t.startCode + o) s = .ok s := by
    unfold demandPage
    rw [hwalk, if_pos hpres]
  have hoff : (t.startCode + o) % 4096 = o % 4096 := by
    rw [h.layout n t h.task]
    omega
  rw [Pte.target_of_present hpres] at hf
  cases hf
  unfold getFsByte
  rw [if_neg (by omega), hdemand]
  show Except.ok (s.page (walk s (t.startCode + o)).frame ((t.startCode + o) % 4096), s) = _
  rw [hwalk, hoff, hbyte]

/-- The loop stops after the zero of the string. -/
theorem skipString_held (hlim : t.dataLimit = 0x4000000) (h : UserMem lo n t s) (bytes : List UInt8)
    (hnonzero : ∀ b ∈ bytes, b ≠ 0) : ∀ {k p : Nat}, bytes.length + 1 ≤ k → p + (bytes.length + 1) ≤ 0x4000000 →
      Holds s n p (bytes ++ [0]) → skipString file n t k p s = .ok (p + (bytes.length + 1), s) := by
  induction bytes with
  | nil =>
    intro k p hk hp hholds
    obtain ⟨k, rfl⟩ := Nat.exists_eq_add_of_le' hk
    unfold skipString
    rw [getFsByte_held hlim h (by omega) (Holds.cons.mp hholds).1]
    rfl
  | cons b bytes ih =>
    intro k p hk hp hholds
    rw [List.length_cons] at hk hp
    obtain ⟨k, rfl⟩ : ∃ j, k = j + 1 := ⟨k - 1, by omega⟩
    obtain ⟨hb, hrest⟩ := Holds.cons.mp hholds
    have hne : b ≠ 0 := hnonzero b List.mem_cons_self
    unfold skipString
    rw [getFsByte_held hlim h (by omega) hb]
    show (if b = 0 then _ else skipString file n t k (p + 1) s) = _
    rw [if_neg hne, ih (fun x hx => hnonzero x (List.mem_cons_of_mem b hx)) (by omega) (by omega) hrest,
      List.length_cons, show p + 1 + (bytes.length + 1) = p + (bytes.length + 1 + 1) by omega]

theorem putStrings_spec (hlim : t.dataLimit = 0x4000000) (args : List CStr) : ∀ {argv p : Nat} {s : Mem},
    UserMem lo n t s → Holds s n p (flat args) → argv + 4 * (args.length + 1) ≤ p →
    p + (flat args).length ≤ 0x4000000 →
    Post (putStrings file n t args.length argv p s)
      (fun r => r.1 = p + (flat args).length ∧ UserMem lo n t r.2 ∧ Holds r.2 n argv (longs (pointers p args)) ∧
        KeepsBut n argv (argv + 4 * (args.length + 1)) s r.2) Oom := by
  induction args with
  | nil =>
    intro argv p s h _ htable hfits
    refine Post.bind (putFsLong_user hlim h (by omega)) ?_
    rintro s₁ ⟨h₁, hzero, hkeeps⟩
    exact Post.ret ⟨rfl, h₁, hzero, hkeeps⟩
  | cons c cs ih =>
    intro argv p s h hholds htable hfits
    have hlaid : c.laid.length = c.bytes.length + 1 := by
      rw [CStr.laid, List.length_append, List.length_singleton]
    rw [flat_cons] at hholds hfits
    rw [List.length_append] at hfits
    rw [List.length_cons] at htable
    refine Post.bind (putFsLong_user hlim h (by omega)) ?_
    rintro s₁ ⟨h₁, hptr, hkeeps₁⟩
    obtain ⟨hstr, hrest⟩ := Holds.append.mp (hkeeps₁.holds hholds (by rw [List.length_append]; omega) (by omega))
    rw [skipString_held hlim h₁ c.bytes c.nonzero (by omega) (by omega) hstr]
    show Post (putStrings file n t cs.length (argv + 4) (p + (c.bytes.length + 1)) s₁) _ _
    rw [← hlaid]
    refine (ih h₁ hrest (by omega) (by omega)).imp ?_
    rintro ⟨q, s₂⟩ ⟨hq, h₂, hptrs, hkeeps₂⟩
    refine ⟨?_, h₂, ?_, ?_⟩
    · rw [flat_cons, List.length_append]
      exact hq.trans (Nat.add_assoc ..)
    · exact Holds.append.mpr ⟨hkeeps₂.holds hptr (by rw [show (longBytes p).length = 4 from rfl]; omega)
        (.inl (by rw [show (longBytes p).length = 4 from rfl])), hptrs⟩
    · rw [List.length_cons]
      exact (hkeeps₁.mono le_rfl (by omega)).trans (hkeeps₂.mono (by omega) (by omega))

theorem tables_length (p : Nat) (args env : List CStr) : (tables p args env).length = args.length + env.length + 5 := by
  unfold tables
  rw [List.length_append, List.length_append, pointers_length, pointers_length]
  simp only [List.length_cons, List.length_nil]
  omega

theorem longs_append (ws vs : List Nat) : longs (ws ++ vs) = longs ws ++ longs vs := List.flatMap_append

/-- `create_tables`, for strings that are there. -/
theorem createTables_spec {args env : List CStr} (hlim : t.dataLimit = 0x4000000) (h : UserMem lo n t s)
    (hholds : Holds s n p (flat args ++ flat env)) (hfits : p + (flat args).length + (flat env).length ≤ 0x4000000)
    (hroom : 4 * (args.length + env.length + 6) ≤ p) :
    Post (createTables file n t p args.length env.length s)
      (fun r => r.1 = p / 4 * 4 - 4 * (env.length + 1) - 4 * (args.length + 1) - 12 ∧ UserMem lo n t r.2 ∧
        Holds r.2 n r.1 (longs (tables p args env)) ∧ KeepsBut n r.1 p s r.2) Oom := by
  unfold createTables
  dsimp only
  have hsp : p / 4 * 4 - 4 * (env.length + 1) - 4 * (args.length + 1) - 12 + 12 + 4 * (args.length + 1) +
      4 * (env.length + 1) = p / 4 * 4 := by omega
  have henvp : p / 4 * 4 - 4 * (env.length + 1) = p / 4 * 4 - 4 * (env.length + 1) - 4 * (args.length + 1) - 12 +
      12 + 4 * (args.length + 1) := by omega
  have hargv : p / 4 * 4 - 4 * (env.length + 1) - 4 * (args.length + 1) =
      p / 4 * 4 - 4 * (env.length + 1) - 4 * (args.length + 1) - 12 + 12 := by omega
  unfold tables
  dsimp only
  generalize p / 4 * 4 - 4 * (env.length + 1) - 4 * (args.length + 1) - 12 = sp at *
  rw [hargv, henvp]
  have hbelow : sp + 12 + 4 * (args.length + 1) + 4 * (env.length + 1) ≤ p := hsp.trans_le (Nat.div_mul_le_self p 4)
  clear hsp hargv henvp hroom
  have hlen : ∀ w, (longBytes w).length = 4 := fun _ => rfl
  refine Post.bind (putFsLong_user hlim h (by omega)) ?_
  rintro s₁ ⟨h₁, hw₁, hkeeps₁⟩
  refine Post.bind (putFsLong_user hlim h₁ (by omega)) ?_
  rintro s₂ ⟨h₂, hw₂, hkeeps₂⟩
  refine Post.bind (putFsLong_user hlim h₂ (by omega)) ?_
  rintro s₃ ⟨h₃, hw₃, hkeeps₃⟩
  rw [show sp + 12 - 4 = sp + 8 by omega] at hw₁ hkeeps₁
  rw [show sp + 12 - 8 = sp + 4 by omega] at hw₂ hkeeps₂
  have hheads : KeepsBut n sp (sp + 12) s s₃ :=
    ((hkeeps₁.mono (by omega) (by omega)).trans (hkeeps₂.mono (by omega) (by omega))).trans
      (hkeeps₃.mono (by omega) (by omega))
  have hlong : (flat args ++ flat env).length = (flat args).length + (flat env).length := List.length_append
  obtain ⟨hargs, henv⟩ := Holds.append.mp (hheads.holds hholds (by omega) (by omega))
  -- the arguments, and then the environment from where they end
  refine Post.bind (putStrings_spec hlim args h₃ hargs (by omega) (by omega)) ?_
  rintro ⟨q, s₄⟩ ⟨hq, h₄, hptrs, hkeeps₄⟩
  change q = _ at hq
  subst hq
  refine Post.bind (putStrings_spec hlim env h₄ (hkeeps₄.holds henv (by omega) (by omega)) (by omega) (by omega)) ?_
  rintro ⟨q, s₅⟩ ⟨-, h₅, hptrs', hkeeps₅⟩
  have hptrsLen : (longs (pointers p args)).length = 4 * (args.length + 1) := by
    rw [longs_length, pointers_length]
  have hlast : KeepsBut n (sp + 12) p s₃ s₅ :=
    (hkeeps₄.mono (by omega) (by omega)).trans (hkeeps₅.mono (by omega) (by omega))
  refine Post.ret ⟨rfl, h₅, ?_, (hheads.mono le_rfl (by omega)).trans (hlast.mono (by omega) le_rfl)⟩
  have hw₁' := hlast.holds (hkeeps₃.holds (hkeeps₂.holds hw₁ (by rw [hlen]; omega) (by omega)) (by rw [hlen]; omega)
    (by omega)) (by rw [hlen]; omega) (by rw [hlen]; omega)
  have hw₂' := hlast.holds (hkeeps₃.holds hw₂ (by rw [hlen]; omega) (by omega)) (by rw [hlen]; omega)
    (by rw [hlen]; omega)
  have hw₃' := hlast.holds hw₃ (by rw [hlen]; omega) (by rw [hlen]; omega)
  have hptrs₅ := hkeeps₅.holds hptrs (by omega) (by omega)
  rw [longs_append, longs_append]
  refine Holds.append.mpr ⟨Holds.append.mpr ⟨?_, ?_⟩, ?_⟩
  · show Holds s₅ n sp (longBytes args.length ++ (longBytes (sp + 12) ++ (longBytes (sp + 12 + 4 * (args.length + 1)) ++ [])))
    refine Holds.append.mpr ⟨hw₃', Holds.append.mpr ⟨hw₂', Holds.append.mpr ⟨hw₁', Holds.nil⟩⟩⟩
  · exact hptrs₅
  · rw [List.length_append, hptrsLen, longs_length]
    rw [show sp + (4 * [args.length, sp + 12, sp + 12 + 4 * (args.length + 1)].length + 4 * (args.length + 1)) =
      sp + 12 + 4 * (args.length + 1) by simp only [List.length_cons, List.length_nil]; omega]
    exact hptrs'

/-! ## Reading it back -/

section Back

variable {B : Nat → UInt8}

/-- The bytes that a program reads from `o` on. -/
def Reads (B : Nat → UInt8) (o : Nat) (bytes : List UInt8) : Prop := ∀ i (h : i < bytes.length), B (o + i) = bytes[i]

theorem reads_append {o : Nat} {xs ys : List UInt8} (h : Reads B o (xs ++ ys)) :
    Reads B o xs ∧ Reads B (o + xs.length) ys := by
  refine ⟨fun i hi => ?_, fun i hi => ?_⟩
  · rw [h i (by rw [List.length_append]; omega), List.getElem_append_left hi]
  · rw [Nat.add_assoc, h (xs.length + i) (by rw [List.length_append]; omega), List.getElem_append_right (by omega)]
    simp

theorem readLong_longs (ws : List Nat) : ∀ {o i : Nat} {w : Nat}, Reads B o (longs ws) → (∀ w ∈ ws, w < 2 ^ 32) →
    ws[i]? = some w → readLong B (o + 4 * i) = w := by
  induction ws with
  | nil =>
    intro o i w _ _ hi
    cases hi
  | cons v ws ih =>
    intro o i w h hlt hi
    have hparts : Reads B o (longBytes v ++ longs ws) := h
    obtain ⟨hv, hrest⟩ := reads_append hparts
    cases i with
    | zero =>
      cases hi
      exact readLong_eq (hlt v List.mem_cons_self) hv
    | succ i =>
      have hnext := ih hrest (fun x hx => hlt x (List.mem_cons_of_mem v hx)) hi
      rw [← hnext, show o + (longBytes v).length + 4 * i = o + 4 * (i + 1) by
        rw [show (longBytes v).length = 4 from rfl]; omega]

theorem pointers_string (args : List CStr) : ∀ {p i : Nat}, i < args.length →
    (pointers p args)[i]? = some (p + (flat (args.take i)).length) := by
  induction args with
  | nil => exact fun h => absurd h (Nat.not_lt_zero _)
  | cons c cs ih =>
    intro p i h
    cases i with
    | zero => rfl
    | succ i =>
      rw [pointers, List.getElem?_cons_succ, ih (Nat.lt_of_succ_lt_succ h), List.take_succ_cons, flat_cons,
        List.length_append, Nat.add_assoc]

theorem pointers_null (args : List CStr) : ∀ {p : Nat}, (pointers p args)[args.length]? = some 0 := by
  induction args with
  | nil => exact rfl
  | cons c cs ih => exact ih

theorem pointers_lt (args : List CStr) : ∀ {p : Nat}, p + (flat args).length ≤ 0x4000000 →
    ∀ w ∈ pointers p args, w < 2 ^ 32 := by
  induction args with
  | nil =>
    intro p _ w hw
    rw [List.mem_singleton.mp hw]
    decide
  | cons c cs ih =>
    intro p hp w hw
    rw [flat_cons, List.length_append] at hp
    rcases List.mem_cons.mp hw with rfl | hw
    · omega
    · exact ih (by omega) w hw

/-- A vector of pointers, and the strings that they point to. -/
theorem pointsTo {v first : Nat} {strs : List CStr} (hfits : first + (flat strs).length ≤ 0x4000000)
    (hptrs : Reads B v (longs (pointers first strs))) (hstrs : Reads B first (flat strs)) :
    PointsTo B v first strs := by
  have hlt := pointers_lt strs hfits
  have hptr : ∀ i < strs.length, readLong B (v + 4 * i) = first + (flat (strs.take i)).length :=
    fun i hi => readLong_longs _ hptrs hlt (pointers_string strs hi)
  refine ⟨hptr, fun i hi => ?_, readLong_longs _ hptrs hlt (pointers_null strs)⟩
  rw [hptr i hi]
  have hsplit : flat strs = flat (strs.take i) ++ (strs[i].laid ++ flat (strs.drop (i + 1))) := by
    rw [← flat_cons, ← List.drop_eq_getElem_cons hi, ← flat_append, List.take_append_drop]
  rw [hsplit] at hstrs
  exact (reads_append (reads_append hstrs).2).1

theorem decodes_of_reads {sp : Nat} {args env : List CStr} (hroom : 4 * (args.length + env.length + 6) ≤ p)
    (hfits : p + (flat args).length + (flat env).length ≤ 0x4000000)
    (hsp : sp = p / 4 * 4 - 4 * (env.length + 1) - 4 * (args.length + 1) - 12)
    (htables : Reads B sp (longs (tables p args env))) (hstrs : Reads B p (flat args ++ flat env)) :
    Decodes B sp p args env := by
  have hcount := length_le_flat args
  have hlt : ∀ w ∈ tables p args env, w < 2 ^ 32 := by
    intro w hw
    unfold tables at hw
    dsimp only at hw
    rw [← hsp] at hw
    rcases List.mem_append.mp hw with hw | hw
    · rcases List.mem_append.mp hw with hw | hw
      · simp only [List.mem_cons, List.not_mem_nil, or_false] at hw
        omega
      · exact pointers_lt args (by omega) w hw
    · exact pointers_lt env (by omega) w hw
  have hargc : readLong B (sp + 4 * 0) = args.length := readLong_longs _ htables hlt rfl
  have hargv : readLong B (sp + 4 * 1) = sp + 12 := by
    rw [readLong_longs _ htables hlt rfl, ← hsp]
  have henvp : readLong B (sp + 4 * 2) = sp + 12 + 4 * (args.length + 1) := by
    rw [readLong_longs _ htables hlt rfl, ← hsp]
  obtain ⟨hargs, henv⟩ := reads_append hstrs
  unfold tables at htables
  rw [longs_append, longs_append] at htables
  obtain ⟨hfirst, hptrs'⟩ := reads_append htables
  obtain ⟨-, hptrs⟩ := reads_append hfirst
  rw [List.length_append, longs_length, longs_length, pointers_length] at hptrs'
  rw [longs_length] at hptrs
  simp only [List.length_cons, List.length_nil] at hptrs hptrs'
  refine ⟨hargc, ?_, ?_, ⟨hargv, henvp⟩, by omega, hfits⟩
  · rw [show readLong B (sp + 4) = sp + 12 from hargv]
    exact pointsTo (by omega) hptrs hargs
  · rw [show readLong B (sp + 8) = sp + 12 + 4 * (args.length + 1) from henvp]
    refine pointsTo (by omega) ?_ henv
    rwa [show sp + 12 + 4 * (args.length + 1) = sp + (4 * (0 + 1 + 1 + 1) + 4 * (args.length + 1)) by omega]

end Back

/-! ## The new stack -/

/-- The task with its new segments. -/
def newTask (current : Task) (executable : Option Nat) (codeLimit : Nat) : Task :=
  { current with executable, codeLimit, dataLimit := 0x4000000 }

theorem getFreePage_setTask {mem : Mem} {r : Option Task} : (getFreePage (mem.setTask n r)).1 = (getFreePage mem).1 := by
  have hmap : (mem.setTask n r).memMap = mem.memMap := rfl
  unfold getFreePage
  rw [hmap]
  cases scanFree mem.memMap pagingPages <;> rfl

/-- From the strings in kernel memory to the stack of the new program, with `rest` the strings that
`create_tables` does not come to. -/
theorem newStack_spec {mem₀ : Mem} {own₀ : Nat → Nat} {current : Task} {a : Args} {args env rest : List CStr}
    (executable : Option Nat) (codeLimit : Nat) (hlo : lowMem ≤ lo) (hlay : Layout mem₀) (ht : UserTask n current mem₀)
    (howned : Owned lo own₀ mem₀ a.mem a.page) (hlaid : Laid mem₀ (flat (args ++ env ++ rest)) a) :
    Post (newStack file n { current with executable } codeLimit args.length env.length a.p a)
      (fun r => r.2.task n = some (newTask current executable codeLimit) ∧
        Decodes (space file r.2 n (newTask current executable codeLimit)) r.1 (a.p.toNat + 0x3FE0000) args env)
      Oom := by
  obtain ⟨own, hinv, hheld, -⟩ := howned.own
  have hlay' := hlay.same howned.frame.same
  have ht' := ht.owned howned
  have hstart : current.startCode = n * 0x4000000 := hlay n current ht.task
  have hmain : ∀ k f, a.page k = some f → k < 32 ∧ lo ≤ f ∧ f < a.mem.highMemory :=
    fun k f hf => ⟨(hlaid.taken k f hf).1, howned.main k f hf⟩
  unfold newStack
  dsimp only
  rw [← bind_assoc]
  -- The pages of the old program go first.
  refine Post.bind ((freeSpace hinv hlay' ht').mono (fun _ h => h) fun _ h => h.elim) ?_
  rintro mem ⟨hinv₁, hfewer, hempty, hfree⟩
  show Post (createTables file n (newTask current executable codeLimit) (a.p.toNat + 0x4000000 - 0x20000) args.length
    env.length (mapArgPages current.startCode a.page
      (mem.setTask n (some (newTask current executable codeLimit))))) _ _
  rw [hstart]
  have hinv₂ : Inv lo own (mem.setTask n (some (newTask current executable codeLimit))) := by
    obtain ⟨h1, h2, h3, h4, h5, h6⟩ := hinv₁.fixed
    exact ⟨hinv₁.good, h1, h2, h3, h4, h5, h6⟩
  have hlay₂ : Layout (mem.setTask n (some (newTask current executable codeLimit))) := by
    intro m t' hm
    change Function.update mem.task n (some (newTask current executable codeLimit)) m = some t' at hm
    by_cases hmn : m = n
    · subst hmn
      rw [Function.update_self] at hm
      cases hm
      exact hstart
    · rw [Function.update_of_ne hmn] at hm
      exact (hlay'.same hfewer.same) m t' hm
  -- Then the argument pages come to the top of the data segment.
  have hmap : Mapping lo n a.page _ [] _ := mapArgPages_spec ht'.slot hinv₂ hempty
    (by rw [getFreePage_setTask]; exact hfree) hheld
    (fun k f hf => by
      rw [show (mem.setTask n (some (newTask current executable codeLimit))).highMemory = a.mem.highMemory from
        hfewer.same.high]
      exact hmain k f hf) hlaid.inj
  obtain ⟨huser, hholds⟩ := hmap.user ht'.slot hlo hlay₂ (Function.update_self ..) hlaid
    (fun k f hf => (hmain k f hf).2.1) hfewer.bytes
  rw [flat_append, flat_append] at hholds
  have hroom := hlaid.room
  rw [flat_append, flat_append, List.length_append, List.length_append] at hroom
  have htop : argTop = 131068 := rfl
  have hargs := length_le_flat args
  have henv := length_le_flat env
  have hp : a.p.toNat + 0x4000000 - 0x20000 = a.p.toNat + 0x3FE0000 := by omega
  rw [hp]
  have hstrs := (Holds.append.mp hholds).1
  refine (createTables_spec rfl huser hstrs (by omega) (by omega)).imp ?_
  rintro ⟨sp, mem'⟩ ⟨hsp, huser', htables, hkeeps⟩
  change sp = _ at hsp
  refine ⟨huser'.task, decodes_of_reads (by omega) (by omega) hsp ?_ ?_⟩
  · intro i hi
    have hlen := hi
    rw [longs_length, tables_length] at hlen
    exact space_of_byteAt ht'.slot (by omega) (htables i hi)
  · intro i hi
    have hlen := hi
    rw [List.length_append] at hlen
    exact space_of_byteAt ht'.slot (by omega)
      (hkeeps.holds hstrs (by rw [List.length_append]; omega) (.inr le_rfl) i hi)

/-! ## execve -/

/-- The calls of `copy_strings` for a program that is not a script. -/
def programCalls (args env : List CStr) : List Copy := [⟨env.length, env, 0⟩, ⟨args.length, args, 0⟩]

theorem programCalls_counted (args env : List CStr) : ∀ call ∈ programCalls args env, call.Counted := by
  intro call hcall
  rcases List.mem_cons.mp hcall with rfl | hcall
  · rfl
  · rw [List.mem_singleton.mp hcall]
    rfl

theorem laidBy_programCalls (args env : List CStr) : laidBy (programCalls args env) = flat (args ++ env ++ []) := by
  rw [List.append_nil, flat_append]
  show flat args ++ (flat env ++ []) = _
  rw [List.append_nil]

theorem layStrings_done {calls : List Copy} {s s' : Args} {p : BitVec 32} (h : s.layStrings calls = .ok (.ok p, s')) :
    calls.foldlM Args.copyStrings s = .ok s' ∧ s'.p = p ∧ p ≠ 0 := by
  cases hs : calls.foldlM Args.copyStrings s with
  | error e =>
    rw [layStrings_error hs] at h
    cases h
  | ok s₁ =>
    rw [layStrings_ok hs] at h
    split at h
    · cases h
    · next hne =>
      cases h
      exact ⟨rfl, rfl, hne⟩

/-- What `do_execve` has when it goes on after its calls. -/
theorem laid_of_done {mem : Mem} {fs : Seg} {calls : List Copy} {a : Args} {p : BitVec 32}
    (hcounted : ∀ call ∈ calls, call.Counted) (h : (Args.start mem fs).layStrings calls = .ok (.ok p, a)) :
    Laid mem (laidBy calls) a ∧ a.p = p := by
  obtain ⟨hs, hp, hne⟩ := layStrings_done h
  obtain ⟨hover, hended⟩ := copyCalls_spec calls hcounted (@laid_start mem fs)
  by_cases hruns : Overruns (argTop - ([] : List UInt8).length) calls ∧ 32 ≤ freePages mem
  · rw [hover hruns] at hs
    cases hs
  · obtain ⟨a', ha', -, -, hend⟩ := hended hruns
    rw [ha'] at hs
    cases hs
    rw [List.append_nil] at hend
    split at hend
    · exact ⟨hend, hp⟩
    · exact absurd (hp.symm.trans hend) hne

theorem not_overruns (calls : List Copy) : ∀ {room : Nat}, size calls ≤ room → ¬ Overruns room calls := by
  induction calls with
  | nil => exact fun _ hover => hover
  | cons call calls ih =>
    intro room hsize hover
    rw [size_cons] at hsize
    rcases hover.2 with hlt | hrest
    · omega
    · exact ih (by omega) hrest

/-- They succeed when there is room and pages. -/
theorem layStrings_fits {mem : Mem} {fs : Seg} {calls : List Copy} (hcounted : ∀ call ∈ calls, call.Counted)
    (hsize : size calls < argTop) (hfree : pagesFor (size calls) ≤ freePages mem) :
    ∃ a, (Args.start mem fs).layStrings calls = .ok (.ok a.p, a) := by
  obtain ⟨-, hended⟩ := copyCalls_spec calls hcounted (@laid_start mem fs)
  rw [List.length_nil, Nat.sub_zero] at hended
  obtain ⟨a, ha, -, -, hend⟩ := hended fun hruns => not_overruns calls (Nat.le_of_lt hsize) hruns.1
  rw [List.length_nil, Nat.zero_add, if_pos ⟨hsize, hfree⟩, List.append_nil] at hend
  have hroom := hend.room
  have hpos : a.p ≠ 0 := by
    intro hzero
    rw [hzero] at hroom
    change 0 + size calls = argTop at hroom
    omega
  refine ⟨a, ?_⟩
  rw [layStrings_ok ha, if_neg hpos]

theorem userTask_of_slots {w : World} {current : Task} (h : Slots lo w) (hn : 1 ≤ n) (hrun : w.Running n current)
    (htable : ∃ d, d / 16 = n ∧ (w.kernel.mem.pgDir d).present = true) : UserTask n current w.kernel.mem := by
  obtain ⟨hn64, hb⟩ := h.tasks n current hrun.1
  refine ⟨⟨hn, hn64⟩, hrun.1, ⟨Nat.le_trans hb.code hb.data, hb.data⟩, fun d hd => ?_, ?_⟩
  · have hmem : d ∈ userDirs := by
      rw [mem_userDirs]
      omega
    cases hpres : (w.kernel.mem.pgDir d).present with
    | false => exact .inr ((tableOf_eq_none hmem).mpr hpres)
    | true =>
      obtain ⟨t', hrun', hlt⟩ := h.owner d (mem_userDirs.mp hmem).1 hpres
      rw [hd] at hrun'
      have hsame : t' = current := Option.some.inj (hrun'.1.symm.trans hrun.1)
      rw [hsame] at hlt
      exact .inl hlt
  · obtain ⟨d, hd, hpres⟩ := htable
    have hmem : d ∈ userDirs := by
      rw [mem_userDirs]
      omega
    exact ⟨d, _, hd, tableOf_eq_some.mpr ⟨hmem, hpres, rfl⟩⟩

/-- In whatever state a program calls `execve`, and whatever the new program is given: what fits the pages of
the arguments is laid, and then, unless the task is killed for want of a page, the new program finds at its
stack pointer what it was given. -/
theorem new_stack_decodes (file : ExeFile) {hi : Nat} {page : Nat → Nat → UInt8} {files : Nat → Files}
    {fCount : Nat → UInt16} {w : World} {current : Task} (hlo : lowMem ≤ lo) (hhi : hi ≤ lowMem + pagingPages)
    (hreach : World.Reachable file lo hi page files fCount w) (hn : 1 ≤ n) (hrun : w.Running n current)
    (htable : ∃ d, d / 16 = n ∧ (w.kernel.mem.pgDir d).present = true) (fs : Seg) (executable : Option Nat)
    (codeLimit : Nat) (args env : List CStr) :
    (size (programCalls args env) < argTop → pagesFor (size (programCalls args env)) ≤ freePages w.kernel.mem →
      ∃ a, (Args.start w.kernel.mem fs).layStrings (programCalls args env) = .ok (.ok a.p, a)) ∧
    ∀ p a, (Args.start w.kernel.mem fs).layStrings (programCalls args env) = .ok (.ok p, a) →
      Post (newStack file n { current with executable } codeLimit args.length env.length p a)
        (fun r => r.2.task n = some (newTask current executable codeLimit) ∧
          Decodes (space file r.2 n (newTask current executable codeLimit)) r.1 (p.toNat + 0x3FE0000) args env)
        Oom := by
  have hcounted := programCalls_counted args env
  refine ⟨layStrings_fits hcounted, fun p a hlay => ?_⟩
  have hslots : Slots lo w :=
    invariant_of_run (fun _ _ hslots hstep => hstep.slots hslots) (boot_slots hlo hhi) hreach
  obtain ⟨hlaid, rfl⟩ := laid_of_done hcounted hlay
  rw [laidBy_programCalls] at hlaid
  exact newStack_spec executable codeLimit hlo hslots.sys.layout (userTask_of_slots hslots hn hrun htable)
    (copyCalls_owned hslots.sys.inv (layStrings_done hlay).1) hlaid

/-! ### The first child -/

/-- No file has anything, and no file is open. -/
def noFile : ExeFile := fun _ _ => none

def noFiles : Nat → Files := fun _ => ⟨fun _ => none, none, none⟩

/-- Task 1 as the first `fork` leaves it. -/
def child : Task := { initTask with startCode := 0x4000000 }

theorem freePages_pos {mem : Mem} {nr : Nat} (hnr : nr < pagingPages) (hfree : mem.memMap nr = 0) :
    0 < freePages mem :=
  Finset.card_pos.mpr ⟨nr, Finset.mem_filter.mpr ⟨Finset.mem_range.mpr hnr, hfree⟩⟩

theorem reach_child : ∃ w, World.Reachable noFile 1024 4096 (fun _ _ => 0) noFiles (fun _ => 0) w ∧
    w.Running 1 child ∧ (w.kernel.mem.pgDir 16).present = true ∧ 0 < freePages w.kernel.mem := by
  let w := World.boot 1024 4096 (fun _ _ => 0) noFiles fun _ => 0
  have hok : ((w.kernel.copyProcess 1 0 initTask 2).toOption.map fun r =>
      decide ((r.2.mem.pgDir 16).present = true ∧ r.2.mem.task 1 = some child ∧ r.2.mem.memMap 1000 = 0)) =
        some true := by decide +kernel
  cases hfork : w.kernel.copyProcess 1 0 initTask 2 with
  | error e =>
    rw [hfork] at hok
    cases hok
  | ok r =>
    rw [hfork] at hok
    obtain ⟨hpres, htask, hfree⟩ := of_decide_eq_true (Option.some.inj hok)
    have hstep := @World.Step.fork noFile w _ _ _ _ _ (by decide) ⟨rfl, rfl⟩ (by decide) rfl (by decide) hfork
    exact ⟨_, .single hstep, ⟨htask, rfl⟩, hpres, freePages_pos (by decide) hfree⟩

/-- The child runs a program with one argument and one string in its environment. -/
theorem new_stack_decodes_child : ∃ (w : World) (a : Args), (Args.start w.kernel.mem .user).layStrings
      (programCalls [letters 2] [letters 1]) = .ok (.ok a.p, a) ∧
    Post (newStack noFile 1 child 4096 1 1 a.p a)
      (fun r => r.2.task 1 = some (newTask child none 4096) ∧
        Decodes (space noFile r.2 1 (newTask child none 4096)) r.1 (a.p.toNat + 0x3FE0000) [letters 2] [letters 1])
      Oom := by
  obtain ⟨w, hreach, hrun, htable, hfree⟩ := reach_child
  obtain ⟨hfits, hdone⟩ := new_stack_decodes noFile (by decide) (by decide) hreach (by decide) hrun
    ⟨16, rfl, htable⟩ .user none 4096 [letters 2] [letters 1]
  obtain ⟨a, ha⟩ := hfits (by decide) (Nat.le_trans (by decide) hfree)
  exact ⟨w, a, ha, hdone _ a ha⟩

end Linux011.Exec
