import Linux011.Lib.Run
import Linux011.Malloc.Lists

/-!
# Runs of the kernel allocator

Calls of `malloc` and `free_s` in any order, between which the owners of the objects write into them.
-/

namespace Linux011.Malloc

open Linux011.Lib

variable {s s' : Heap} {live live' : Nat → Option Nat} {use : Nat → List Nat} {spare tables : List Nat}
  {a : Option Nat} {i d obj len page size fuel : Nat} {l l₁ l₂ : List Nat}

/-! ## The searches -/

theorem findFree_chain (hchain : Chain s.next a l) (hfuel : l.length ≤ fuel) :
    ∃ r, s.findFree fuel a = .ok r ∧ ∀ d, r = some d → d ∈ l ∧ (s.desc d).freeptr ≠ none := by
  induction l generalizing a fuel with
  | nil =>
    cases hchain
    exact ⟨none, by unfold Heap.findFree; rfl, fun d h => nomatch h⟩
  | cons e l ih =>
    obtain ⟨rfl, hrest⟩ := hchain
    obtain - | fuel := fuel
    · cases hfuel
    unfold Heap.findFree
    split
    · next hsome =>
      refine ⟨some e, rfl, fun d hd => ?_⟩
      cases hd
      exact ⟨List.mem_cons_self, Option.isSome_iff_ne_none.mp hsome⟩
    · obtain ⟨r, hr, hfound⟩ := ih hrest (Nat.le_of_succ_le_succ hfuel)
      exact ⟨r, hr, fun d hd => (hfound d hd).imp_left (List.mem_cons_of_mem e)⟩

theorem findPage_none {prev : Option Nat} (hchain : Chain s.next a l) (hfuel : l.length ≤ fuel)
    (hnone : ∀ e ∈ l, (s.desc e).page ≠ some page) : s.findPage page fuel a prev = .ok none := by
  induction l generalizing a fuel prev with
  | nil =>
    cases hchain
    unfold Heap.findPage
    rfl
  | cons e l ih =>
    obtain ⟨rfl, hrest⟩ := hchain
    obtain - | fuel := fuel
    · cases hfuel
    unfold Heap.findPage
    rw [if_neg (hnone e List.mem_cons_self)]
    exact ih hrest (Nat.le_of_succ_le_succ hfuel) fun e' he' => hnone e' (List.mem_cons_of_mem e he')

/-- The search finds the descriptor and the one before it. -/
theorem findPage_some {prev : Option Nat} (hchain : Chain s.next a (l₁ ++ d :: l₂))
    (hfuel : (l₁ ++ d :: l₂).length ≤ fuel) (hnone : ∀ e ∈ l₁, (s.desc e).page ≠ some page)
    (hpage : (s.desc d).page = some page) :
    s.findPage page fuel a prev = .ok (some (d, l₁.getLast?.or prev)) := by
  induction l₁ generalizing a fuel prev with
  | nil =>
    obtain ⟨rfl, -⟩ := hchain
    obtain - | fuel := fuel
    · cases hfuel
    unfold Heap.findPage
    rw [if_pos hpage]
    rfl
  | cons e l₁ ih =>
    obtain ⟨rfl, hrest⟩ := hchain
    obtain - | fuel := fuel
    · cases hfuel
    unfold Heap.findPage
    rw [if_neg (hnone e List.mem_cons_self),
      ih hrest (Nat.le_of_succ_le_succ hfuel) fun e' he' => hnone e' (List.mem_cons_of_mem e he')]
    simp [List.getLast?_cons]

/-- A descriptor is found in the chain of its size, whatever smaller size the caller names. -/
theorem search_found {idle : Option Nat} (h : Inv s live use spare tables idle) (hd : d ∈ use i)
    (hpage : (s.desc d).page = some page) (hsize : size ≤ sizeOf i) {dirs : List (Nat × Nat)}
    (hdirs : ∀ dir ∈ dirs, dir.1 = sizeOf dir.2) (hi : (sizeOf i, i) ∈ dirs) :
    ∃ l₁ l₂, use i = l₁ ++ d :: l₂ ∧ s.search page size dirs = .ok (i, d, l₁.getLast?) := by
  induction dirs with
  | nil => cases hi
  | cons dir dirs ih =>
    obtain ⟨b, k⟩ := dir
    have hrest := ih fun dir hm => hdirs dir (List.mem_cons_of_mem _ hm)
    obtain rfl : b = sizeOf k := hdirs (b, k) List.mem_cons_self
    unfold Heap.search
    by_cases hki : k = i
    · subst hki
      rw [if_neg (Nat.not_lt.mpr hsize)]
      obtain ⟨l₁, l₂, huse⟩ := List.append_of_mem hd
      have hnodup := h.nodup k
      have hchain := h.chains k
      have hlen := h.length_le k
      rw [huse] at hnodup hchain hlen
      refine ⟨l₁, l₂, huse, ?_⟩
      rw [findPage_some hchain hlen _ hpage, Option.or_none]
      · rfl
      · intro e he hpe
        have hmem : e ∈ use k := by
          rw [huse]
          exact List.mem_append_left _ he
        obtain rfl := h.pages k k e d page hmem hd hpe hpage
        exact (List.nodup_cons.mp (List.nodup_middle.mp hnodup)).1 (List.mem_append_left _ he)
    · have hi : (sizeOf i, i) ∈ dirs := by
        rcases List.mem_cons.mp hi with heq | hm
        · exact absurd (Prod.mk.inj heq).2.symm hki
        · exact hm
      have hnone : s.findPage page s.held.length (s.chain k) none = .ok none := by
        apply findPage_none (h.chains k) (h.length_le k)
        intro e he hpe
        obtain rfl := h.pages k i e d page he hd hpe hpage
        exact hki (h.apart k i e he hd)
      split
      · exact hrest hi
      · rw [hnone]
        exact hrest hi

/-! ## The calls -/

/-- The texts of the two panics without a page. -/
def OutOfMemory (stop : Stop) : Prop :=
  stop = .panic "Out of memory in init_bucket_desc()" ∨ stop = .panic "Out of memory in kernel malloc()"

/-- A new bucket of size `i`, from a free descriptor or from a new page of them. -/
theorem newBucket_spec (h : Inv s live use spare tables none) (hi : i < sizes.length)
    (hfresh : Fresh s.given s.held) :
    Post (s.newBucket i (sizeOf i))
      (fun r => s.held ⊆ r.2.held ∧ ∃ use spare tables, r.1 ∈ use i ∧ (r.2.desc r.1).freeptr ≠ none ∧
        Inv r.2 live use spare tables (some r.1))
      fun stop => s.given.length < 2 ∧ OutOfMemory stop := by
  unfold Heap.newBucket
  by_cases hspare : s.freeBucketDesc = none
  · rw [if_pos hspare]
    have hinit : Post s.initBucketDesc _ fun stop => s.given.length < 2 ∧ OutOfMemory stop :=
      (h.initBucketDesc hfresh).mono (fun _ h => h) (by
        rintro stop ⟨hgiven, rfl⟩
        exact ⟨by rw [hgiven]; decide, Or.inl rfl⟩)
    refine hinit.bind ?_
    rintro s₁ ⟨hspare₁, hgiven, hfresh₁, hheld₁, spare₁, tables₁, hinv⟩
    refine (hinv.openBucket hi hfresh₁ hspare₁).mono ?_ ?_
    · rintro r ⟨hheld, use', spare', hr⟩
      exact ⟨List.Subset.trans hheld₁ hheld, use', spare', tables₁, hr⟩
    · -- the page of descriptors was the last one
      rintro stop ⟨hnil, rfl⟩
      have hlen : s.given.tail.length = 0 := by rw [← hgiven, hnil, List.length_nil]
      rw [List.length_tail] at hlen
      exact ⟨by omega, Or.inr rfl⟩
  · rw [if_neg hspare]
    refine (h.openBucket hi hfresh hspare).mono ?_ ?_
    · rintro r ⟨hheld, use', spare', hr⟩
      exact ⟨hheld, use', spare', tables, hr⟩
    · rintro stop ⟨hgiven, rfl⟩
      exact ⟨by rw [hgiven]; decide, Or.inr rfl⟩

/-- `malloc` gives out a cell of the right bucket, or it gets no page. -/
theorem malloc_spec (h : Inv s live use spare tables none) (hlen : len ≤ pageSize)
    (hfresh : Fresh s.given s.held) :
    Post (s.malloc len)
      (fun r => live r.1 = none ∧ s.held ⊆ r.2.held ∧
        ∃ use spare tables, Inv r.2 (Function.update live r.1 (some len)) use spare tables none)
      fun stop => s.given.length < 2 ∧ OutOfMemory stop := by
  unfold Heap.malloc
  cases hdir : sizes.findIdx? (fun size => decide (len ≤ size)) with
  | none => exact absurd hlen (Nat.not_le.mpr (findDir_none hdir))
  | some i =>
    have hfits := findDir_some hdir
    obtain ⟨r, hr, hfound⟩ := findFree_chain (h.chains i) (h.length_le i)
    dsimp only
    rw [hr]
    cases r with
    | some d =>
      obtain ⟨hd, hfree⟩ := hfound d rfl
      obtain ⟨obj, s', htake, hnone, hheld, hinv⟩ := h.take (Or.inl rfl) hd hfits hfree
      show Post (s.take d) _ _
      rw [htake]
      exact Post.ret ⟨hnone, hheld ▸ List.Subset.refl _, use, spare, tables, hinv⟩
    | none =>
      show Post (s.newBucket i (sizeOf i) >>= fun r => r.2.take r.1) _ _
      refine (newBucket_spec h hfits.1 hfresh).bind ?_
      rintro ⟨d, s₁⟩ ⟨hheld, use', spare', tables', hd, hfree, hinv⟩
      obtain ⟨obj, s', htake, hnone, hheld', hinv'⟩ := hinv.take (Or.inr rfl) hd hfits hfree
      show Post (s₁.take d) _ _
      rw [htake]
      exact Post.ret ⟨hnone, hheld' ▸ hheld, use', spare', tables', hinv'⟩

/-- Before `free_s` is interrupted, the predecessor it has found is accurate. -/
theorem checkPrev_chain (hchain : Chain s.next (s.chain i) (l₁ ++ d :: l₂)) :
    s.checkPrev i d l₁.getLast? = .ok l₁.getLast? := by
  unfold Heap.checkPrev
  rcases List.eq_nil_or_concat l₁ with rfl | ⟨l, p, rfl⟩
  · simp [hchain.1]
  · rw [List.concat_eq_append, List.append_assoc] at hchain
    simp [hchain.link]

/-- The objects on a page are in the cells of its bucket. -/
theorem cell_of_page {idle : Option Nat} (h : Inv s live use spare tables idle) (hd : d ∈ use i)
    (hpage : (s.desc d).page = some page) {a : Nat} (ha : live a = some len)
    (hplace : a / pageSize * pageSize = page) : a ∈ cells page (sizeOf i) := by
  obtain ⟨j, e, page', hfits, he, hpage', hcell⟩ := h.object a len ha
  obtain ⟨page₁, free, hbucket⟩ := h.buckets j e he
  obtain rfl : page' = page₁ := Option.some.inj (hpage'.symm.trans hbucket.page_eq)
  obtain rfl : page = page' := by rw [← hplace, page_of_cell hfits.1 hbucket.isPage hcell]
  obtain rfl := h.pages j i e d page he hd hpage' hpage
  rwa [h.apart i j e hd he]

/-- `free_s` takes an object back, and its page is given back if no other object lies on it. -/
theorem freeS_spec (h : Inv s live use spare tables none) (hobj : live obj = some len)
    (hsize : ∀ i, Fits len i → size ≤ sizeOf i) :
    ∃ s', s.freeS obj size = .ok s' ∧
      (∃ use spare, Inv s' (Function.update live obj none) use spare tables none) ∧
      ((∃ a, a ≠ obj ∧ live a ≠ none ∧ a / pageSize * pageSize = obj / pageSize * pageSize) →
        s'.held = s.held) ∧
      ((¬ ∃ a, a ≠ obj ∧ live a ≠ none ∧ a / pageSize * pageSize = obj / pageSize * pageSize) →
        s'.held = s.held.erase (obj / pageSize * pageSize)) := by
  obtain ⟨i, d, page, hfits, hd, hpage, hcell⟩ := h.object obj len hobj
  obtain ⟨page', free, hbucket⟩ := h.buckets i d hd
  obtain rfl : page = page' := Option.some.inj (hpage.symm.trans hbucket.page_eq)
  have hplace := page_of_cell hfits.1 hbucket.isPage hcell
  obtain ⟨l₁, l₂, huse, hsearch⟩ := search_found h hd hpage (hsize i hfits)
    (show ∀ dir ∈ sizes.zipIdx, dir.1 = sizeOf dir.2 by decide)
    ((show ∀ i < sizes.length, (sizeOf i, i) ∈ sizes.zipIdx by decide) i hfits.1)
  have hput := h.put hd hpage hobj hcell
  have hpage' : ((s.put d obj).desc d).page = some page := by
    show (Function.update s.desc d _ d).page = _
    rw [Function.update_self]
    exact hpage
  -- The other objects on the page are those its descriptor still counts.
  have hothers : (∃ a, a ≠ obj ∧ live a ≠ none ∧ a / pageSize * pageSize = page) ↔
      ((s.put d obj).desc d).refcnt ≠ 0 := by
    obtain ⟨page', free', hnew⟩ := hput.buckets i d hd
    obtain rfl : page = page' := Option.some.inj (hpage'.symm.trans hnew.page_eq)
    rw [hnew.refcnt_eq hfits.1, ← Nat.pos_iff_ne_zero, List.length_pos_iff_exists_mem]
    constructor
    · rintro ⟨a, hao, hlive, ha⟩
      obtain ⟨len', hlen'⟩ := Option.ne_none_iff_exists'.mp hlive
      refine ⟨a, List.mem_filter.mpr ⟨cell_of_page h hd hpage hlen' ha, ?_⟩⟩
      rw [Function.update_of_ne hao, hlen']
      rfl
    · rintro ⟨a, ha⟩
      obtain ⟨hcell', hsome⟩ := List.mem_filter.mp ha
      have hao : a ≠ obj := by
        rintro rfl
        rw [Function.update_self] at hsome
        cases hsome
      rw [Function.update_of_ne hao] at hsome
      exact ⟨a, hao, Option.isSome_iff_ne_none.mp hsome, page_of_cell hfits.1 hbucket.isPage hcell'⟩
  rw [hplace, hothers]
  unfold Heap.freeS
  rw [hplace, hsearch]
  by_cases hzero : ((s.put d obj).desc d).refcnt = 0
  · obtain ⟨s₁, hunlink, hheld, hinv⟩ := hput.retire huse hzero hpage'
    have hchain := hput.chains i
    rw [huse] at hchain
    refine ⟨s₁.retire d, ?_, ⟨_, _, hinv⟩, fun hne => absurd hzero hne, fun _ => hheld⟩
    show (if ((s.put d obj).desc d).refcnt = 0 then _ else _) = _
    rw [if_pos hzero, checkPrev_chain hchain]
    show ((s.put d obj).unlink i d l₁.getLast? >>= _) = _
    rw [hunlink]
    rfl
  · refine ⟨s.put d obj, ?_, ⟨_, _, hput.settle hzero⟩, fun _ => rfl, fun hne => absurd hzero hne⟩
    show (if ((s.put d obj).desc d).refcnt = 0 then _ else _) = _
    rw [if_neg hzero]
    rfl

/-! ## Runs -/

/-- Nothing was asked for yet. -/
structure Start (s : Heap) : Prop where
  chain : ∀ i, s.chain i = none
  spare : s.freeBucketDesc = none
  held : s.held = []

/-- What can happen: the two calls, for which `get_free_page` gives any pages that are not in use, and
writes into objects. What the memory has outside of the pages of the allocator may change at any time. -/
inductive Step : Heap × (Nat → Option Nat) → Heap × (Nat → Option Nat) → Prop
  | malloc {s s' : Heap} {live : Nat → Option Nat} {len obj : Nat} (given : List Nat) (hlen : len ≤ pageSize)
      (hfresh : Fresh given s.held) (hok : Heap.malloc len { s with given } = .ok (obj, s')) :
      Step (s, live) (s', Function.update live obj (some len))
  | freeS {s s' : Heap} {live : Nat → Option Nat} {len obj : Nat} (size : Nat) (hlive : live obj = some len)
      (hsize : ∀ i, Fits len i → size ≤ sizeOf i) (hok : s.freeS obj size = .ok s') :
      Step (s, live) (s', Function.update live obj none)
  | write {s : Heap} {live : Nat → Option Nat} (word : Nat → Option Nat)
      (hword : ∀ x, x % 16 = 0 → x / pageSize * pageSize ∈ s.held →
        (∀ a len, live a = some len → ¬ (a ≤ x ∧ x < a + len)) → word x = s.word x) :
      Step (s, live) ({ s with word }, live)

theorem inv_start (h : Start s) : Inv s (fun _ => none) (fun _ => []) [] [] none := by
  have hno : ∀ {p : Prop} {d : Nat}, d ∈ ([] : List Nat) → p := fun hd => nomatch hd
  refine ⟨h.chain, h.spare, fun _ => List.nodup_nil, List.nodup_nil, fun _ _ _ hd => hno hd, fun _ _ hd => hno hd,
    fun _ _ hd => hno hd, fun _ _ hd => hno hd, fun _ _ hd => hno hd, fun _ _ _ _ _ hd => hno hd,
    fun _ _ _ hd => hno hd, fun _ hd => hno hd, ?_, ?_, ?_, fun _ _ ha => nomatch ha⟩
  · rintro d (hd | ⟨_, hd⟩)
    · exact hno hd
    · exact hno hd
  · rw [h.held]
    exact fun _ hp => hno hp
  · rw [h.held]
    exact List.nodup_nil

/-- The owner of an object does not reach the links of the free cells. -/
theorem inv_write (h : Inv s live use spare tables none) {word : Nat → Option Nat}
    (hword : ∀ x, x % 16 = 0 → x / pageSize * pageSize ∈ s.held →
      (∀ a len, live a = some len → ¬ (a ≤ x ∧ x < a + len)) → word x = s.word x) :
    Inv { s with word } live use spare tables none := by
  refine { h with buckets := ?_ }
  intro i d hd
  obtain ⟨page, free, hbucket⟩ := h.buckets i d hd
  have hi := h.sized i d hd
  refine ⟨page, free, hbucket.congr rfl (fun x hx => ?_) fun _ _ => rfl⟩
  obtain ⟨hcell, hnone⟩ := (hbucket.mem_iff x).mp hx
  have hplace := page_of_cell hi hbucket.isPage hcell
  apply hword x (cell_aligned hi hbucket.isPage hcell)
  · rw [hplace]
    exact (h.used i d page hd hbucket.page_eq).1
  · rintro a len ha ⟨hle, hlt⟩
    obtain ⟨j, e, page', hfits, he, hpe, hcell'⟩ := h.object a len ha
    obtain ⟨page₁, free', hother⟩ := h.buckets j e he
    obtain rfl : page' = page₁ := Option.some.inj (hpe.symm.trans hother.page_eq)
    have hrange := cell_range hfits.1 hcell'
    have hrange' := cell_range hi hcell
    have hsize := hfits.2.1
    have hsize' := (sizeOf_spec i hi).1
    have hxa : x ≠ a := by
      rintro rfl
      rw [ha] at hnone
      cases hnone
    -- An address in an object is in its page, and there the cells are apart.
    have hpp : page' = page := by
      have hp := hbucket.isPage.1
      have hp' := hother.isPage.1
      unfold pageSize at *
      omega
    subst hpp
    obtain rfl := h.pages j i e d page' he hd hpe hbucket.page_eq
    obtain rfl := h.apart j i e he hd
    rcases cells_apart hcell hcell' hxa with hleft | hright
    · omega
    · omega

/-- `given` is no part of the lists. -/
theorem inv_given (h : Inv s live use spare tables none) (given : List Nat) :
    Inv { s with given } live use spare tables none := by
  refine { h with buckets := ?_ }
  intro i d hd
  obtain ⟨page, free, hbucket⟩ := h.buckets i d hd
  exact ⟨page, free, hbucket.congr rfl (fun _ _ => rfl) fun _ _ => rfl⟩

theorem step_inv {σ σ' : Heap × (Nat → Option Nat)}
    (h : ∃ use spare tables, Inv σ.1 σ.2 use spare tables none) (hstep : Step σ σ') :
    ∃ use spare tables, Inv σ'.1 σ'.2 use spare tables none := by
  obtain ⟨use, spare, tables, h⟩ := h
  cases hstep with
  | malloc given hlen hfresh hok =>
    exact ((malloc_spec (inv_given h given) hlen hfresh).of_ok _ hok).2.2
  | freeS size hlive hsize hok =>
    obtain ⟨s', hok', ⟨use', spare', hinv⟩, -⟩ := freeS_spec h hlive hsize
    rw [hok'] at hok
    cases hok
    exact ⟨use', spare', tables, hinv⟩
  | write word hword => exact ⟨use, spare, tables, inv_write h hword⟩

/-! ## What a run can rely on -/

/-- A descriptor in the chain of a size. -/
def InUse (s : Heap) (i d : Nat) : Prop := ∃ l, Chain s.next (s.chain i) l ∧ d ∈ l

/-- A descriptor in the chain of the free ones. -/
def Spare (s : Heap) (d : Nat) : Prop := ∃ l, Chain s.next s.freeBucketDesc l ∧ d ∈ l

/-- The objects and the lists, by the links in memory alone. -/
structure Sound (s : Heap) (live : Nat → Option Nat) : Prop where
  ends : ∀ i, ∃ l, Chain s.next (s.chain i) l ∧ l.Nodup
  spare_ends : ∃ l, Chain s.next s.freeBucketDesc l ∧ l.Nodup
  placed : ∀ a len, live a = some len → ∃ i d page, Fits len i ∧ InUse s i d ∧
    (s.desc d).page = some page ∧ IsPage page ∧ a ∈ cells page (sizeOf i)
  apart : ∀ a b len len' i j, live a = some len → live b = some len' → Fits len i → Fits len' j → a ≠ b →
    a + sizeOf i ≤ b ∨ b + sizeOf j ≤ a
  counted : ∀ i d, InUse s i d → ∃ page free, Bucket s live i d page free ∧
    (s.desc d).refcnt = ((cells page (sizeOf i)).filter fun a => (live a).isSome).length ∧
    ∀ a, live a ≠ none → a / pageSize * pageSize = page → a ∈ cells page (sizeOf i)
  unused : ∀ i d, InUse s i d → ¬ Spare s d
  one_page : ∀ i j d e page, InUse s i d → InUse s j e → (s.desc d).page = some page →
    (s.desc e).page = some page → d = e ∧ i = j
  held : ∃ tables : List Nat, (∀ d, (Spare s d ∨ ∃ i, InUse s i d) → d / pageSize * pageSize ∈ tables) ∧
    (∀ a, live a ≠ none → a / pageSize * pageSize ∉ tables) ∧
    ∀ p, p ∈ s.held ↔ p ∈ tables ∨ ∃ a, live a ≠ none ∧ a / pageSize * pageSize = p

theorem sizeOf_fits {j : Nat} (hi : Fits len i) (hj : Fits len j) : i = j := by
  rcases Nat.lt_trichotomy i j with hlt | heq | hlt
  · exact absurd hi.2.1 (Nat.not_le.mpr (hj.2.2 i hlt))
  · exact heq
  · exact absurd hj.2.1 (Nat.not_le.mpr (hi.2.2 j hlt))

theorem inUse_iff (h : Inv s live use spare tables none) {i d : Nat} : InUse s i d ↔ d ∈ use i := by
  constructor
  · rintro ⟨l, hl, hd⟩
    rwa [(h.chains i).unique hl]
  · exact fun hd => ⟨use i, h.chains i, hd⟩

theorem spare_iff (h : Inv s live use spare tables none) {d : Nat} : Spare s d ↔ d ∈ spare := by
  constructor
  · rintro ⟨l, hl, hd⟩
    rwa [h.spares.unique hl]
  · exact fun hd => ⟨spare, h.spares, hd⟩

theorem bucket_of_page (h : Inv s live use spare tables none) {i d page : Nat} (hd : d ∈ use i)
    (hpage : (s.desc d).page = some page) : ∃ free, Bucket s live i d page free := by
  obtain ⟨page', free, hbucket⟩ := h.buckets i d hd
  obtain rfl : page = page' := Option.some.inj (hpage.symm.trans hbucket.page_eq)
  exact ⟨free, hbucket⟩

/-- An object with the bucket that it came from. -/
theorem object_bucket (h : Inv s live use spare tables none) {a len : Nat} (ha : live a = some len) :
    ∃ i d page free, Fits len i ∧ d ∈ use i ∧ Bucket s live i d page free ∧ a ∈ cells page (sizeOf i) := by
  obtain ⟨i, d, page, hfits, hd, hpage, hcell⟩ := h.object a len ha
  obtain ⟨free, hbucket⟩ := bucket_of_page h hd hpage
  exact ⟨i, d, page, free, hfits, hd, hbucket, hcell⟩

theorem objects_apart (h : Inv s live use spare tables none) {a b len len' i j : Nat} (ha : live a = some len)
    (hb : live b = some len') (hi : Fits len i) (hj : Fits len' j) (hab : a ≠ b) :
    a + sizeOf i ≤ b ∨ b + sizeOf j ≤ a := by
  obtain ⟨i', d, page, free, hfits, hd, hbucket, hcell⟩ := object_bucket h ha
  obtain ⟨j', e, page', free', hfits', he, hbucket', hcell'⟩ := object_bucket h hb
  obtain rfl := sizeOf_fits hi hfits
  obtain rfl := sizeOf_fits hj hfits'
  by_cases hpp : page = page'
  · -- on one page, and so in the cells of one size
    subst hpp
    obtain rfl := h.pages i j d e page hd he hbucket.page_eq hbucket'.page_eq
    obtain rfl := h.apart i j d hd he
    exact cells_apart hcell hcell' hab
  · have hrange := cell_range hi.1 hcell
    have hrange' := cell_range hj.1 hcell'
    have hp := hbucket.isPage.1
    have hp' := hbucket'.isPage.1
    unfold pageSize at *
    omega

/-- The page of an object is in use. -/
theorem page_used (h : Inv s live use spare tables none) {a : Nat} (ha : live a ≠ none) :
    a / pageSize * pageSize ∈ s.held ∧ a / pageSize * pageSize ∉ tables := by
  obtain ⟨len, hlen⟩ := Option.ne_none_iff_exists'.mp ha
  obtain ⟨i, d, page, free, hfits, hd, hbucket, hcell⟩ := object_bucket h hlen
  rw [page_of_cell hfits.1 hbucket.isPage hcell]
  exact h.used i d page hd hbucket.page_eq

/-- A page in use has an object on it. -/
theorem used_object (h : Inv s live use spare tables none) {i d p : Nat} (hd : d ∈ use i)
    (hpage : (s.desc d).page = some p) : ∃ a, live a ≠ none ∧ a / pageSize * pageSize = p := by
  obtain ⟨free, hbucket⟩ := bucket_of_page h hd hpage
  have hi := h.sized i d hd
  have hbusy := (h.busy i d hd).resolve_left fun heq => nomatch heq
  rw [hbucket.refcnt_eq hi, ← Nat.pos_iff_ne_zero, List.length_pos_iff_exists_mem] at hbusy
  obtain ⟨a, ha⟩ := hbusy
  obtain ⟨hcell, hsome⟩ := List.mem_filter.mp ha
  exact ⟨a, Option.isSome_iff_ne_none.mp hsome, page_of_cell hi hbucket.isPage hcell⟩

theorem held_iff (h : Inv s live use spare tables none) (p : Nat) :
    p ∈ s.held ↔ p ∈ tables ∨ ∃ a, live a ≠ none ∧ a / pageSize * pageSize = p := by
  constructor
  · intro hp
    refine (h.held p hp).imp_right ?_
    rintro ⟨i, d, hd, hpage⟩
    exact used_object h hd hpage
  · rintro (hp | ⟨a, ha, rfl⟩)
    · exact h.table_held p hp
    · exact (page_used h ha).1

theorem sound_of_inv (h : Inv s live use spare tables none) : Sound s live where
  ends i := ⟨use i, h.chains i, h.nodup i⟩
  spare_ends := ⟨spare, h.spares, h.spare_nodup⟩
  placed a len ha := by
    obtain ⟨i, d, page, free, hfits, hd, hbucket, hcell⟩ := object_bucket h ha
    exact ⟨i, d, page, hfits, (inUse_iff h).mpr hd, hbucket.page_eq, hbucket.isPage, hcell⟩
  apart _ _ _ _ _ _ := objects_apart h
  counted i d hd := by
    rw [inUse_iff h] at hd
    obtain ⟨page, free, hbucket⟩ := h.buckets i d hd
    refine ⟨page, free, hbucket, hbucket.refcnt_eq (h.sized i d hd), fun a ha hplace => ?_⟩
    obtain ⟨len, hlen⟩ := Option.ne_none_iff_exists'.mp ha
    exact cell_of_page h hd hbucket.page_eq hlen hplace
  unused i d hd := by
    rw [inUse_iff h] at hd
    rw [spare_iff h]
    exact h.unused i d hd
  one_page i j d e page hd he hpage hpage' := by
    rw [inUse_iff h] at hd he
    obtain rfl := h.pages i j d e page hd he hpage hpage'
    exact ⟨rfl, h.apart i j d hd he⟩
  held := by
    refine ⟨tables, fun d hd => ?_, fun a ha => (page_used h ha).2, held_iff h⟩
    simp only [inUse_iff h, spare_iff h] at hd
    exact h.table d hd

/-- After any calls the objects lie apart in cells of the right sizes and the lists are as they should be.
The next `malloc` gives out an address nobody has, or there was no page for it; the next `free_s` returns,
and it gives the page back exactly if it takes back the last object on it. -/
theorem objects_sound {s₀ : Heap} (hstart : Start s₀)
    (hrun : Relation.ReflTransGen Step (s₀, fun _ => none) (s, live)) :
    Sound s live ∧
      (∀ len given, len ≤ pageSize → Fresh given s.held →
        Post (Heap.malloc len { s with given }) (fun r => live r.1 = none ∧ s.held ⊆ r.2.held)
          fun stop => given.length < 2 ∧ OutOfMemory stop) ∧
      ∀ obj len size, live obj = some len → (∀ i, Fits len i → size ≤ sizeOf i) →
        ∃ s', s.freeS obj size = .ok s' ∧
          ((∃ a, a ≠ obj ∧ live a ≠ none ∧ a / pageSize * pageSize = obj / pageSize * pageSize) →
            s'.held = s.held) ∧
          ((¬ ∃ a, a ≠ obj ∧ live a ≠ none ∧ a / pageSize * pageSize = obj / pageSize * pageSize) →
            obj / pageSize * pageSize ∈ s.held ∧ obj / pageSize * pageSize ∉ s'.held ∧
              s'.held = s.held.erase (obj / pageSize * pageSize)) := by
  obtain ⟨use, spare, tables, h⟩ := invariant_of_run
    (I := fun σ => ∃ use spare tables, Inv σ.1 σ.2 use spare tables none)
    (fun _ _ => step_inv) ⟨_, _, _, inv_start hstart⟩ hrun
  have hsound := sound_of_inv h
  refine ⟨hsound, fun len given hlen hfresh => ?_, fun obj len size hobj hsize => ?_⟩
  · exact (malloc_spec (inv_given h given) hlen hfresh).imp fun r hr => ⟨hr.1, hr.2.1⟩
  · obtain ⟨s', hok, -, hkept, hgone⟩ := freeS_spec h hobj hsize
    refine ⟨s', hok, hkept, fun hlast => ?_⟩
    obtain ⟨tables, -, -, hheld⟩ := hsound.held
    have hpage : obj / pageSize * pageSize ∈ s.held :=
      (hheld _).mpr (Or.inr ⟨obj, Option.ne_none_iff_exists'.mpr ⟨len, hobj⟩, rfl⟩)
    refine ⟨hpage, ?_, hgone hlast⟩
    rw [hgone hlast]
    exact h.held_nodup.not_mem_erase

/-- Booting. -/
def empty : Heap where
  word := fun _ => none
  desc := fun _ => ⟨none, none, 0, 0⟩
  next := fun _ => none
  chain := fun _ => none
  freeBucketDesc := none
  given := []
  held := []

/-- `malloc(100)` at first takes a page for descriptors and a page for objects. A large object gets a page of its
own, and then the first object is freed. -/
theorem objects_sound_frees : ∃ (s₁ s₂ s₃ : Heap) (b : Nat),
    Heap.malloc 100 { empty with given := [0x1000, 0x2000] } = .ok (0x2000, s₁) ∧
    Heap.malloc 4000 { s₁ with given := [0x3000, 0x4000] } = .ok (b, s₂) ∧ s₂.freeS 0x2000 0 = .ok s₃ ∧ b ≠ 0x2000 ∧
    Sound s₃ (Function.update (Function.update (Function.update (fun _ => none) 0x2000 (some 100)) b (some 4000))
      0x2000 none) := by
  have hstart : Start empty := ⟨fun _ => rfl, rfl, rfl⟩
  obtain ⟨s₁, hs₁, hheld⟩ : ∃ s, Heap.malloc 100 { empty with given := [0x1000, 0x2000] } = .ok (0x2000, s) ∧
    s.held = [0x2000, 0x1000] := ⟨_, rfl, rfl⟩
  have hrun₁ : Relation.ReflTransGen Step (empty, fun _ => none) (s₁, Function.update (fun _ => none) 0x2000 (some 100)) :=
    .single (Step.malloc (s := empty) [0x1000, 0x2000] (by decide) ⟨by decide, by unfold IsPage; decide⟩ hs₁)
  have hfresh : Fresh [0x3000, 0x4000] s₁.held := by
    rw [hheld]
    exact ⟨by decide, by unfold IsPage; decide⟩
  have hmalloc := (objects_sound hstart hrun₁).2.1 4000 [0x3000, 0x4000] (by decide) hfresh
  cases hs₂ : Heap.malloc 4000 { s₁ with given := [0x3000, 0x4000] } with
  | error stop =>
    rw [hs₂] at hmalloc
    exact absurd (hmalloc.2 stop rfl).1 (by decide)
  | ok r =>
    obtain ⟨b, s₂⟩ := r
    rw [hs₂] at hmalloc
    have hne : b ≠ 0x2000 := by
      rintro rfl
      have hlive := (hmalloc.1 _ rfl).1
      rw [Function.update_self] at hlive
      cases hlive
    have hrun₂ := hrun₁.tail (Step.malloc [0x3000, 0x4000] (by decide) hfresh hs₂)
    have hobj : Function.update (Function.update (fun _ => none) 0x2000 (some 100)) b (some 4000) 0x2000 = some 100 := by
      rw [Function.update_of_ne hne.symm, Function.update_self]
    obtain ⟨s₃, hs₃, -⟩ := (objects_sound hstart hrun₂).2.2 0x2000 100 0 hobj fun _ _ => Nat.zero_le _
    have hrun₃ := hrun₂.tail (Step.freeS 0 hobj (fun _ _ => Nat.zero_le _) hs₃)
    exact ⟨s₁, s₂, s₃, b, hs₁, hs₂, hs₃, hne, (objects_sound hstart hrun₃).1⟩

end Linux011.Malloc
