import Mathlib.Data.List.Perm.Subperm
import Linux011.Malloc.Objects

/-!
# The lists of the kernel allocator

What each part of `malloc` and `free_s` does to the lists.
-/

namespace Linux011.Malloc

open Linux011.Lib

variable {s s' : Heap} {live live' : Nat → Option Nat} {use : Nat → List Nat} {spare tables free : List Nat}
  {idle : Option Nat} {i j d e a b obj len page page' size : Nat}

/-- A descriptor in use: its free cells are those no object lies in, each once, and its count is the
number of the others. -/
structure Bucket (s : Heap) (live : Nat → Option Nat) (i d page : Nat) (free : List Nat) : Prop where
  page_eq : (s.desc d).page = some page
  isPage : IsPage page
  size_eq : (s.desc d).bucketSize = sizeOf i
  chain : Chain s.word (s.desc d).freeptr free
  nodup : free.Nodup
  mem_iff : ∀ a, a ∈ free ↔ a ∈ cells page (sizeOf i) ∧ live a = none
  count : (s.desc d).refcnt + free.length = pageSize / sizeOf i

/-- The lists of the allocator. A page without objects is given back at once, but for that of the
descriptor `idle`, which a call is working on. -/
structure Inv (s : Heap) (live : Nat → Option Nat) (use : Nat → List Nat) (spare tables : List Nat)
    (idle : Option Nat) : Prop where
  chains : ∀ i, Chain s.next (s.chain i) (use i)
  spares : Chain s.next s.freeBucketDesc spare
  nodup : ∀ i, (use i).Nodup
  spare_nodup : spare.Nodup
  apart : ∀ i j d, d ∈ use i → d ∈ use j → i = j
  unused : ∀ i d, d ∈ use i → d ∉ spare
  sized : ∀ i d, d ∈ use i → i < sizes.length
  buckets : ∀ i d, d ∈ use i → ∃ page free, Bucket s live i d page free
  busy : ∀ i d, d ∈ use i → idle = some d ∨ (s.desc d).refcnt ≠ 0
  pages : ∀ i j d e page, d ∈ use i → e ∈ use j → (s.desc d).page = some page →
    (s.desc e).page = some page → d = e
  used : ∀ i d page, d ∈ use i → (s.desc d).page = some page → page ∈ s.held ∧ page ∉ tables
  table_held : ∀ q ∈ tables, q ∈ s.held
  table : ∀ d, (d ∈ spare ∨ ∃ i, d ∈ use i) → d / pageSize * pageSize ∈ tables
  held : ∀ p ∈ s.held, p ∈ tables ∨ ∃ i d, d ∈ use i ∧ (s.desc d).page = some p
  held_nodup : s.held.Nodup
  object : ∀ a len, live a = some len →
    ∃ i d page, Fits len i ∧ d ∈ use i ∧ (s.desc d).page = some page ∧ a ∈ cells page (sizeOf i)

/-- Cells of different pages are different. -/
theorem cells_of_ne (hi : i < sizes.length) (hj : j < sizes.length) (hp : IsPage page) (hp' : IsPage page')
    (hne : page ≠ page') (ha : a ∈ cells page (sizeOf i)) : a ∉ cells page' (sizeOf j) := by
  intro ha'
  apply hne
  rw [← page_of_cell hi hp ha, ← page_of_cell hj hp' ha']

namespace Bucket

/-- A bucket depends on its descriptor, its page and the objects on it. -/
theorem congr (h : Bucket s live i d page free) (hdesc : s'.desc d = s.desc d)
    (hword : ∀ a ∈ free, s'.word a = s.word a) (hlive : ∀ a ∈ cells page (sizeOf i), live' a = live a) :
    Bucket s' live' i d page free := by
  refine ⟨hdesc ▸ h.page_eq, h.isPage, hdesc ▸ h.size_eq, ?_, h.nodup, ?_, hdesc ▸ h.count⟩
  · rw [hdesc]
    exact h.chain.congr hword
  · intro a
    rw [h.mem_iff]
    exact and_congr_right fun ha => by rw [hlive a ha]

/-- The count of a page is the number of its objects. -/
theorem refcnt_eq (h : Bucket s live i d page free) (hi : i < sizes.length) :
    (s.desc d).refcnt = ((cells page (sizeOf i)).filter fun a => (live a).isSome).length := by
  have hsize := (sizeOf_spec i hi).1
  have hperm : free.Perm ((cells page (sizeOf i)).filter fun a => !(live a).isSome) := by
    apply (List.perm_ext_iff_of_nodup h.nodup ((nodup_cells (by omega) page).filter _)).mpr
    intro a
    rw [h.mem_iff, List.mem_filter]
    simp
  have hsum : ((cells page (sizeOf i)).filter fun a => (live a).isSome).length +
      ((cells page (sizeOf i)).filter fun a => !(live a).isSome).length = (cells page (sizeOf i)).length := by
    exact (List.length_eq_length_filter_add _).symm
  rw [length_cells, ← hperm.length_eq] at hsum
  have hcount := h.count
  omega

end Bucket

theorem fresh_tail {p : Nat} {given held : List Nat} (hnodup : (p :: given).Nodup)
    (hpages : ∀ q ∈ p :: given, IsPage q ∧ q ∉ held) : Fresh given (p :: held) := by
  obtain ⟨hp, hnodup⟩ := List.nodup_cons.mp hnodup
  refine ⟨hnodup, fun q hq => ?_⟩
  obtain ⟨hpage, hheld⟩ := hpages q (List.mem_cons_of_mem p hq)
  refine ⟨hpage, fun hm => ?_⟩
  rcases List.mem_cons.mp hm with rfl | hm
  · exact hp hq
  · exact hheld hm

namespace Inv

/-- Nobody else has a cell of a bucket. -/
theorem other (h : Inv s live use spare tables idle) (hd : d ∈ use i) (hpage : (s.desc d).page = some page)
    (hp : IsPage page) (he : e ∈ use j) (hne : e ≠ d) {free : List Nat}
    (hbucket : Bucket s live j e page' free) (ha : a ∈ cells page' (sizeOf j)) :
    a ∉ cells page (sizeOf i) := by
  apply cells_of_ne (h.sized j e he) (h.sized i d hd) hbucket.isPage hp _ ha
  rintro rfl
  exact hne (h.pages j i e d _ he hd hbucket.page_eq hpage)

/-- A chain has no more descriptors than there are pages. -/
theorem length_le (h : Inv s live use spare tables idle) (i : Nat) : (use i).length ≤ s.held.length := by
  have hpages : ((use i).map fun d => (s.desc d).page).Nodup := by
    apply List.Nodup.map_on _ (h.nodup i)
    intro d hd e he heq
    obtain ⟨page, free, hbucket⟩ := h.buckets i d hd
    exact h.pages i i d e page hd he hbucket.page_eq (heq ▸ hbucket.page_eq)
  have hsub : ((use i).map fun d => (s.desc d).page) ⊆ s.held.map some := by
    intro page hpage
    obtain ⟨d, hd, rfl⟩ := List.mem_map.mp hpage
    obtain ⟨page, free, hbucket⟩ := h.buckets i d hd
    rw [hbucket.page_eq]
    exact List.mem_map.mpr ⟨page, (h.used i d page hd hbucket.page_eq).1, rfl⟩
  have hle := (List.subperm_of_subset hpages hsub).length_le
  rwa [List.length_map, List.length_map] at hle

/-- A change in one bucket: in its descriptor, in its cells, and in the objects on its page. -/
theorem touch (h : Inv s live use spare tables idle) {idle' : Option Nat} (hd : d ∈ use i)
    (hnext : s'.next = s.next) (hchain : s'.chain = s.chain) (hspare : s'.freeBucketDesc = s.freeBucketDesc)
    (hheld : s'.held = s.held) (hdesc : ∀ e, e ≠ d → s'.desc e = s.desc e)
    (hpage : (s.desc d).page = some page) (hbucket : Bucket s' live' i d page free)
    (hword : ∀ a, a ∉ cells page (sizeOf i) → s'.word a = s.word a)
    (hlive : ∀ a, a ∉ cells page (sizeOf i) → live' a = live a)
    (hobject : ∀ a len, live' a = some len → a ∈ cells page (sizeOf i) → Fits len i)
    (hidle : idle = none ∨ idle = some d) (hbusy : idle' = some d ∨ (s'.desc d).refcnt ≠ 0) :
    Inv s' live' use spare tables idle' := by
  have hsame : ∀ e, (s'.desc e).page = (s.desc e).page := by
    intro e
    by_cases hed : e = d
    · rw [hed, hbucket.page_eq, hpage]
    · rw [hdesc e hed]
  refine ⟨?_, ?_, h.nodup, h.spare_nodup, h.apart, h.unused, h.sized, ?_, ?_, ?_, ?_, ?_, h.table, ?_, ?_, ?_⟩
  · rw [hnext, hchain]
    exact h.chains
  · rw [hnext, hspare]
    exact h.spares
  · intro j e he
    by_cases hed : e = d
    · subst hed
      rw [h.apart j i e he hd]
      exact ⟨page, free, hbucket⟩
    · obtain ⟨page', free', hother⟩ := h.buckets j e he
      have hout := fun a => h.other hd hpage hbucket.isPage he hed hother (a := a)
      refine ⟨page', free', hother.congr (hdesc e hed) ?_ fun a ha => hlive a (hout a ha)⟩
      exact fun a ha => hword a (hout a ((hother.mem_iff a).mp ha).1)
  · intro j e he
    by_cases hed : e = d
    · rw [hed]
      exact hbusy
    · right
      rw [hdesc e hed]
      apply (h.busy j e he).resolve_left
      rcases hidle with rfl | rfl
      · exact fun heq => nomatch heq
      · exact fun heq => hed (Option.some.inj heq).symm
  · intro j k e e' p he he' hpe hpe'
    rw [hsame] at hpe hpe'
    exact h.pages j k e e' p he he' hpe hpe'
  · intro j e p he hpe
    rw [hsame] at hpe
    rw [hheld]
    exact h.used j e p he hpe
  · rw [hheld]
    exact h.table_held
  · intro p hp
    rw [hheld] at hp
    simp only [hsame]
    exact h.held p hp
  · rw [hheld]
    exact h.held_nodup
  · intro a len ha
    simp only [hsame]
    by_cases hcell : a ∈ cells page (sizeOf i)
    · exact ⟨i, d, page, hobject a len ha hcell, hd, hpage, hcell⟩
    · rw [hlive a hcell] at ha
      exact h.object a len ha

/-- An object lies in the bucket its cell is of. -/
theorem fits (h : Inv s live use spare tables idle) (hd : d ∈ use i) (hpage : (s.desc d).page = some page)
    (hp : IsPage page) (ha : live a = some len) (hcell : a ∈ cells page (sizeOf i)) : Fits len i := by
  obtain ⟨j, e, page', hfits, he, hpage', hcell'⟩ := h.object a len ha
  by_cases hed : e = d
  · subst hed
    rwa [h.apart i j e hd he]
  · obtain ⟨page₁, free, hbucket⟩ := h.buckets j e he
    obtain rfl : page' = page₁ := Option.some.inj (hpage'.symm.trans hbucket.page_eq)
    exact absurd hcell (h.other hd hpage hp he hed hbucket hcell')

/-! ## The end of malloc -/

/-- `malloc` hands out the first free cell of a bucket. -/
theorem take (h : Inv s live use spare tables idle) (hidle : idle = none ∨ idle = some d) (hd : d ∈ use i)
    (hfits : Fits len i) (hfree : (s.desc d).freeptr ≠ none) :
    ∃ obj s', s.take d = .ok (obj, s') ∧ live obj = none ∧ s'.held = s.held ∧
      Inv s' (Function.update live obj (some len)) use spare tables none := by
  obtain ⟨page, free, hbucket⟩ := h.buckets i d hd
  obtain ⟨obj, hptr⟩ := Option.ne_none_iff_exists'.mp hfree
  have hchain := hbucket.chain
  rw [hptr] at hchain
  obtain ⟨free', rfl, hrest⟩ := hchain.of_some
  obtain ⟨hobj, hlive⟩ := (hbucket.mem_iff obj).mp List.mem_cons_self
  obtain ⟨hnotin, hnodup⟩ := List.nodup_cons.mp hbucket.nodup
  refine ⟨obj, s.setDesc d fun b => { b with freeptr := s.word obj, refcnt := (b.refcnt + 1) % 2 ^ 16 },
    by unfold Heap.take; rw [hptr], hlive, rfl, ?_⟩
  have hsmall : pageSize / sizeOf i ≤ pageSize := Nat.div_le_self _ _
  have hcount := hbucket.count
  rw [List.length_cons] at hcount
  have hmod : ((s.desc d).refcnt + 1) % 2 ^ 16 = (s.desc d).refcnt + 1 := by
    apply Nat.mod_eq_of_lt
    unfold pageSize at *
    omega
  have hself : (s.setDesc d fun b => { b with freeptr := s.word obj, refcnt := (b.refcnt + 1) % 2 ^ 16 }).desc d =
      { s.desc d with freeptr := s.word obj, refcnt := (s.desc d).refcnt + 1 } := by
    show Function.update s.desc d _ d = _
    rw [Function.update_self, hmod]
  have hnew : Bucket (s.setDesc d fun b => { b with freeptr := s.word obj, refcnt := (b.refcnt + 1) % 2 ^ 16 })
      (Function.update live obj (some len)) i d page free' := by
    refine ⟨?_, hbucket.isPage, ?_, ?_, hnodup, ?_, ?_⟩
    · rw [hself]
      exact hbucket.page_eq
    · rw [hself]
      exact hbucket.size_eq
    · rw [hself]
      exact hrest
    · intro a
      by_cases hao : a = obj
      · rw [hao, Function.update_self]
        exact ⟨fun hm => absurd hm hnotin, fun hm => absurd hm.2 (Option.some_ne_none _)⟩
      · rw [Function.update_of_ne hao, ← hbucket.mem_iff, List.mem_cons]
        exact (or_iff_right hao).symm
    · rw [hself]
      show (s.desc d).refcnt + 1 + free'.length = _
      omega
  refine h.touch hd rfl rfl rfl rfl ?_ hbucket.page_eq hnew (fun _ _ => rfl) ?_ ?_ hidle ?_
  · exact fun e hed => Function.update_of_ne hed _ _
  · intro a ha
    apply Function.update_of_ne
    rintro rfl
    exact ha hobj
  · intro a len' ha hcell
    by_cases hao : a = obj
    · rw [hao, Function.update_self] at ha
      rw [← Option.some.inj ha]
      exact hfits
    · rw [Function.update_of_ne hao] at ha
      exact h.fits hd hbucket.page_eq hbucket.isPage ha hcell
  · right
    rw [hself]
    exact Nat.succ_ne_zero _

/-! ## The end of free_s -/

/-- `free_s` links an object in front of the free cells of its page. -/
theorem put (h : Inv s live use spare tables none) (hd : d ∈ use i) (hpage : (s.desc d).page = some page)
    (hobj : live obj = some len) (hcell : obj ∈ cells page (sizeOf i)) :
    Inv (s.put d obj) (Function.update live obj none) use spare tables (some d) := by
  obtain ⟨page', free, hbucket⟩ := h.buckets i d hd
  obtain rfl : page = page' := Option.some.inj (hpage.symm.trans hbucket.page_eq)
  have hnotin : obj ∉ free := by
    intro hm
    rw [((hbucket.mem_iff obj).mp hm).2] at hobj
    cases hobj
  have hnodup : (obj :: free).Nodup := List.nodup_cons.mpr ⟨hnotin, hbucket.nodup⟩
  -- The object lies in a cell that is not free, so that the count is positive.
  have hroom : free.length + 1 ≤ pageSize / sizeOf i := by
    have hsub : obj :: free ⊆ cells page (sizeOf i) := by
      intro a ha
      rcases List.mem_cons.mp ha with rfl | ha
      · exact hcell
      · exact ((hbucket.mem_iff a).mp ha).1
    rw [← length_cells page, ← List.length_cons (a := obj)]
    exact (List.subperm_of_subset hnodup hsub).length_le
  have hsmall : pageSize / sizeOf i ≤ pageSize := Nat.div_le_self _ _
  have hcount := hbucket.count
  have hmod : ((s.desc d).refcnt + (2 ^ 16 - 1)) % 2 ^ 16 = (s.desc d).refcnt - 1 := by
    unfold pageSize at *
    omega
  have hself : (s.put d obj).desc d =
      { s.desc d with freeptr := some obj, refcnt := (s.desc d).refcnt - 1 } := by
    show Function.update s.desc d _ d = _
    rw [Function.update_self, hmod]
  have hnew : Bucket (s.put d obj) (Function.update live obj none) i d page (obj :: free) := by
    refine ⟨?_, hbucket.isPage, ?_, ?_, hnodup, ?_, ?_⟩
    · rw [hself]
      exact hpage
    · rw [hself]
      exact hbucket.size_eq
    · rw [hself]
      refine ⟨rfl, ?_⟩
      show Chain (Function.update s.word obj _) (Function.update s.word obj _ obj) free
      rw [Function.update_self]
      exact hbucket.chain.update_of_notMem hnotin
    · intro a
      by_cases hao : a = obj
      · rw [hao, Function.update_self]
        exact iff_of_true List.mem_cons_self ⟨hcell, rfl⟩
      · rw [Function.update_of_ne hao, ← hbucket.mem_iff, List.mem_cons]
        exact or_iff_right hao
    · rw [hself, List.length_cons]
      show (s.desc d).refcnt - 1 + (free.length + 1) = _
      omega
  refine h.touch hd rfl rfl rfl rfl ?_ hpage hnew ?_ ?_ ?_ (Or.inl rfl) (Or.inl rfl)
  · exact fun e hed => Function.update_of_ne hed _ _
  · intro a ha
    apply Function.update_of_ne
    rintro rfl
    exact ha hcell
  · intro a ha
    apply Function.update_of_ne
    rintro rfl
    exact ha hcell
  · intro a len' ha hcell'
    apply h.fits hd hpage hbucket.isPage _ hcell'
    by_cases hao : a = obj
    · rw [hao, Function.update_self] at ha
      cases ha
    · rwa [Function.update_of_ne hao] at ha

/-- A page with objects on it stays. -/
theorem settle (h : Inv s live use spare tables (some d)) (hbusy : (s.desc d).refcnt ≠ 0) :
    Inv s live use spare tables none := by
  refine { h with busy := ?_ }
  intro j e he
  right
  rcases h.busy j e he with heq | hne
  · cases heq
    exact hbusy
  · exact hne

/-- `free_s` takes a descriptor out of its chain behind the one that was found before it. -/
theorem unlink_chain {l₁ l₂ : List Nat} (hchain : Chain s.next (s.chain i) (l₁ ++ d :: l₂))
    (hnodup : (l₁ ++ d :: l₂).Nodup) :
    ∃ next chain, s.unlink i d l₁.getLast? = .ok { s with next, chain } ∧
      Chain next (chain i) (l₁ ++ l₂) ∧ (∀ e, e ∉ l₁ → next e = s.next e) ∧
      ∀ j, j ≠ i → chain j = s.chain j := by
  unfold Heap.unlink
  rcases List.eq_nil_or_concat l₁ with rfl | ⟨l, p, rfl⟩
  · refine ⟨s.next, Function.update s.chain i (s.next d), by simp [hchain.1], ?_, fun _ _ => rfl, ?_⟩
    · rw [Function.update_self]
      exact hchain.2
    · exact fun j hj => Function.update_of_ne hj _ _
  · rw [List.concat_eq_append, List.append_assoc] at hchain hnodup
    refine ⟨Function.update s.next p (s.next d), s.chain, by simp, ?_, ?_, fun _ _ => rfl⟩
    · rw [List.concat_eq_append, List.append_assoc]
      exact hchain.unlink hnodup
    · intro e he
      apply Function.update_of_ne
      rintro rfl
      simp at he

/-- The chains when `d` has gone from chain `i`. -/
theorem mem_unlinked {l₁ l₂ : List Nat} (h : Inv s live use spare tables idle) (huse : use i = l₁ ++ d :: l₂) :
    e ∈ Function.update use i (l₁ ++ l₂) j ↔ e ∈ use j ∧ e ≠ d := by
  have hd : d ∈ use i := by
    rw [huse]
    simp
  exact mem_removed huse (h.nodup i) fun j hj => h.apart j i d hj hd

/-- No object lies in a page whose count is 0. -/
theorem empty_page (h : Inv s live use spare tables idle) (hd : d ∈ use i) (hzero : (s.desc d).refcnt = 0)
    (hpage : (s.desc d).page = some page) : ∀ a ∈ cells page (sizeOf i), live a = none := by
  obtain ⟨page', free, hbucket⟩ := h.buckets i d hd
  obtain rfl : page = page' := Option.some.inj (hpage.symm.trans hbucket.page_eq)
  intro a ha
  have hnone := hbucket.refcnt_eq (h.sized i d hd)
  rw [hzero, eq_comm, List.length_eq_zero_iff, List.filter_eq_nil_iff] at hnone
  simpa using hnone a ha

/-- The links when `d` has gone from chain `i` to the free descriptors. -/
theorem chains_retire {l₁ l₂ : List Nat} {next chain : Nat → Option Nat} (h : Inv s live use spare tables idle)
    (huse : use i = l₁ ++ d :: l₂) (hshort : Chain next (chain i) (l₁ ++ l₂))
    (hnext : ∀ e, e ∉ l₁ → next e = s.next e) (hother : ∀ j, j ≠ i → chain j = s.chain j) :
    (∀ j, Chain (Function.update next d s.freeBucketDesc) (chain j) (Function.update use i (l₁ ++ l₂) j)) ∧
      Chain (Function.update next d s.freeBucketDesc) (some d) (d :: spare) := by
  have hd : d ∈ use i := by
    rw [huse]
    simp
  have hfar : ∀ e, e ∉ use i → next e = s.next e := by
    intro e he
    apply hnext
    intro hm
    apply he
    rw [huse]
    exact List.mem_append_left _ hm
  have hgone : ∀ j, d ∉ Function.update use i (l₁ ++ l₂) j := fun j hm => ((h.mem_unlinked huse).mp hm).2 rfl
  constructor
  · intro j
    apply Chain.update_of_notMem _ (hgone j)
    by_cases hji : j = i
    · subst hji
      rwa [Function.update_self]
    · rw [Function.update_of_ne hji, hother j hji]
      exact (h.chains j).congr fun e he => hfar e fun hm => hji (h.apart j i e he hm)
  · refine ⟨rfl, ?_⟩
    rw [Function.update_self]
    exact (h.spares.congr fun e he => hfar e fun hm => h.unused i e hm he).update_of_notMem (h.unused i d hd)

/-- A page without objects goes back, and its descriptor to the free ones. -/
theorem retire {l₁ l₂ : List Nat} (h : Inv s live use spare tables (some d)) (huse : use i = l₁ ++ d :: l₂)
    (hzero : (s.desc d).refcnt = 0) (hpage : (s.desc d).page = some page) :
    ∃ s', s.unlink i d l₁.getLast? = .ok s' ∧ (s'.retire d).held = s.held.erase page ∧
      Inv (s'.retire d) live (Function.update use i (l₁ ++ l₂)) (d :: spare) tables none := by
  have hd : d ∈ use i := by
    rw [huse]
    simp
  have hchain := h.chains i
  have hnodup := h.nodup i
  rw [huse] at hchain hnodup
  obtain ⟨next, chain, hunlink, hshort, hnext, hother⟩ := unlink_chain hchain hnodup
  refine ⟨_, hunlink, by simp only [Heap.retire, Heap.freePage, hpage], ?_⟩
  obtain ⟨hchains, hspares⟩ := h.chains_retire huse hshort hnext hother
  have hmem : ∀ j e, e ∈ Function.update use i (l₁ ++ l₂) j ↔ e ∈ use j ∧ e ≠ d := fun j e => h.mem_unlinked huse
  have hheld : ∀ p, p ∈ s.held.erase page ↔ p ≠ page ∧ p ∈ s.held := fun p => h.held_nodup.mem_erase_iff
  have hpages : ∀ j e p, e ∈ use j → e ≠ d → (s.desc e).page = some p → p ≠ page := by
    rintro j e p he hed hpe rfl
    exact hed (h.pages j i e d _ he hd hpe hpage)
  have hstate : Heap.retire d { s with next, chain } = { s with
      next := Function.update next d s.freeBucketDesc
      chain
      freeBucketDesc := some d
      held := s.held.erase page } := by
    simp only [Heap.retire, Heap.freePage, hpage]
  rw [hstate]
  exact {
    chains := hchains
    spares := hspares
    nodup := nodup_removed huse h.nodup
    spare_nodup := List.nodup_cons.mpr ⟨h.unused i d hd, h.spare_nodup⟩
    apart := fun j k e he he' => h.apart j k e ((hmem j e).mp he).1 ((hmem k e).mp he').1
    unused := by
      intro j e he
      obtain ⟨he, hed⟩ := (hmem j e).mp he
      exact fun hm => (List.mem_cons.mp hm).elim hed (h.unused j e he)
    sized := fun j e he => h.sized j e ((hmem j e).mp he).1
    buckets := by
      intro j e he
      obtain ⟨page', free, hbucket⟩ := h.buckets j e ((hmem j e).mp he).1
      exact ⟨page', free, hbucket.congr rfl (fun _ _ => rfl) fun _ _ => rfl⟩
    busy := by
      intro j e he
      obtain ⟨he, hed⟩ := (hmem j e).mp he
      exact Or.inr ((h.busy j e he).resolve_left fun heq => hed (Option.some.inj heq).symm)
    pages := fun j k e e' p he he' => h.pages j k e e' p ((hmem j e).mp he).1 ((hmem k e').mp he').1
    used := by
      intro j e p he hpe
      obtain ⟨he, hed⟩ := (hmem j e).mp he
      obtain ⟨hp, hnot⟩ := h.used j e p he hpe
      exact ⟨(hheld p).mpr ⟨hpages j e p he hed hpe, hp⟩, hnot⟩
    table_held := by
      intro q hq
      refine (hheld q).mpr ⟨?_, h.table_held q hq⟩
      rintro rfl
      exact (h.used i d q hd hpage).2 hq
    table := by
      intro e he
      apply h.table
      rcases he with he | ⟨j, he⟩
      · rcases List.mem_cons.mp he with rfl | he
        · exact Or.inr ⟨i, hd⟩
        · exact Or.inl he
      · exact Or.inr ⟨j, ((hmem j e).mp he).1⟩
    held := by
      intro p hp
      obtain ⟨hne, hp⟩ := (hheld p).mp hp
      refine (h.held p hp).imp_right ?_
      rintro ⟨j, e, he, hpe⟩
      refine ⟨j, e, (hmem j e).mpr ⟨he, ?_⟩, hpe⟩
      rintro rfl
      exact hne (Option.some.inj (hpe.symm.trans hpage))
    held_nodup := h.held_nodup.erase _
    object := by
      intro a len ha
      obtain ⟨j, e, p, hfits, he, hpe, hcell⟩ := h.object a len ha
      refine ⟨j, e, p, hfits, (hmem j e).mpr ⟨he, ?_⟩, hpe, hcell⟩
      rintro rfl
      obtain rfl : page = p := Option.some.inj (hpage.symm.trans hpe)
      rw [h.apart j i e he hd] at hcell
      rw [h.empty_page hd hzero hpage a hcell] at ha
      cases ha }

/-! ## New pages -/

/-- A new page of free descriptors. -/
theorem addTable (h : Inv s live use spare tables none) {p : Nat} (hpage : IsPage p) (hp : p ∉ s.held)
    {next : Nat → Option Nat} (given : List Nat)
    (hspares : Chain s.next s.freeBucketDesc spare → (∀ e ∈ cells p 16, e ∉ spare) →
      Chain next (some p) (cells p 16 ++ spare))
    (hfar : ∀ e, e ∉ cells p 16 → next e = s.next e) :
    Inv { s with next, freeBucketDesc := some p, given, held := p :: s.held } live use
      (cells p 16 ++ spare) (p :: tables) none := by
  have hcell : ∀ e ∈ cells p 16, e / pageSize * pageSize = p := fun e he =>
    page_of_cell (i := 0) (by decide) hpage he
  have hnew : ∀ e ∈ cells p 16, ¬ (e ∈ spare ∨ ∃ j, e ∈ use j) := by
    intro e he hold
    have htable := h.table e hold
    rw [hcell e he] at htable
    exact hp (h.table_held p htable)
  have hout : ∀ e ∈ cells p 16, e ∉ spare := fun e he hm => hnew e he (Or.inl hm)
  refine ⟨?_, hspares h.spares hout, h.nodup, ?_, h.apart, ?_, h.sized, ?_, h.busy, h.pages, ?_, ?_, ?_, ?_, ?_,
    h.object⟩
  · exact fun j => (h.chains j).congr fun e he => hfar e fun hm => hnew e hm (Or.inr ⟨j, he⟩)
  · exact List.nodup_append'.mpr ⟨nodup_cells (by decide) p, h.spare_nodup, hout⟩
  · intro j e he hm
    rcases List.mem_append.mp hm with hm | hm
    · exact hnew e hm (Or.inr ⟨j, he⟩)
    · exact h.unused j e he hm
  · intro j e he
    obtain ⟨page, free, hbucket⟩ := h.buckets j e he
    exact ⟨page, free, hbucket.congr rfl (fun _ _ => rfl) fun _ _ => rfl⟩
  · intro j e page he hpe
    obtain ⟨hheld, hnot⟩ := h.used j e page he hpe
    refine ⟨List.mem_cons_of_mem p hheld, fun hm => ?_⟩
    rcases List.mem_cons.mp hm with rfl | hm
    · exact hp hheld
    · exact hnot hm
  · intro q hq
    rcases List.mem_cons.mp hq with rfl | hq
    · exact List.mem_cons_self
    · exact List.mem_cons_of_mem p (h.table_held q hq)
  · intro e he
    by_cases hm : e ∈ cells p 16
    · rw [hcell e hm]
      exact List.mem_cons_self
    · refine List.mem_cons_of_mem p (h.table e (he.imp_left fun hs => ?_))
      exact (List.mem_append.mp hs).resolve_left hm
  · intro q hq
    rcases List.mem_cons.mp hq with rfl | hq
    · exact Or.inl List.mem_cons_self
    · exact (h.held q hq).imp_left (List.mem_cons_of_mem p)
  · exact List.nodup_cons.mpr ⟨hp, h.held_nodup⟩

/-- The links when `d` has come to chain `i`. -/
theorem chains_push (h : Inv s live use spare tables idle) (hd : ∀ j, d ∉ use j) (j : Nat) :
    Chain (Function.update s.next d (s.chain i)) (Function.update s.chain i (some d) j)
      (Function.update use i (d :: use i) j) := by
  by_cases hji : j = i
  · subst hji
    rw [Function.update_self, Function.update_self]
    refine ⟨rfl, ?_⟩
    rw [Function.update_self]
    exact (h.chains j).update_of_notMem (hd j)
  · rw [Function.update_of_ne hji, Function.update_of_ne hji]
    exact (h.chains j).update_of_notMem (hd j)

/-- A page that nobody has is not that of a descriptor in use. -/
theorem page_ne {p : Nat} (h : Inv s live use spare tables idle) (hp : p ∉ s.held) (he : e ∈ use j)
    (hpe : (s.desc e).page = some page) : page ≠ p := by
  rintro rfl
  exact hp (h.used j e page he hpe).1

/-- No object lies in a page that nobody has. -/
theorem unheld_page {p : Nat} (h : Inv s live use spare tables idle) (hi : i < sizes.length) (hpage : IsPage p)
    (hp : p ∉ s.held) : ∀ a ∈ cells p (sizeOf i), live a = none := by
  intro a ha
  by_contra hsome
  obtain ⟨len, hlen⟩ := Option.ne_none_iff_exists'.mp hsome
  obtain ⟨j, e, page, -, he, hpe, hcell⟩ := h.object a len hlen
  obtain ⟨page', free, hbucket⟩ := h.buckets j e he
  obtain rfl : page = page' := Option.some.inj (hpe.symm.trans hbucket.page_eq)
  exact cells_of_ne (h.sized j e he) hi hbucket.isPage hpage (h.page_ne hp he hpe) hcell ha

/-- A new page of free cells, under the first free descriptor. -/
theorem addBucket (h : Inv s live use (d :: spare) tables none) (hi : i < sizes.length) {p : Nat}
    (hpage : IsPage p) (hp : p ∉ s.held) {word : Nat → Option Nat} (given : List Nat)
    (hcells : Chain word (some p) (cells p (sizeOf i)))
    (hword : ∀ a, a ∉ cells p (sizeOf i) → word a = s.word a)
    (hs' : s' = { s with
      word
      desc := Function.update s.desc d ⟨some p, some p, 0, sizeOf i⟩
      next := Function.update s.next d (s.chain i)
      chain := Function.update s.chain i (some d)
      freeBucketDesc := s.next d
      given
      held := p :: s.held }) :
    Inv s' live (Function.update use i (d :: use i)) spare tables (some d) := by
  have hd : ∀ j, d ∉ use j := fun j hm => h.unused j d hm List.mem_cons_self
  obtain ⟨hgone, hnodup⟩ := List.nodup_cons.mp h.spare_nodup
  have hsize : 0 < sizeOf i := Nat.lt_of_lt_of_le (by decide) (sizeOf_spec i hi).1
  have hmem : ∀ j e, e ∈ Function.update use i (d :: use i) j ↔ e ∈ use j ∨ (e = d ∧ j = i) :=
    fun j e => mem_added
  have hne : ∀ j e, e ∈ use j → e ≠ d := by
    rintro j e he rfl
    exact hd j he
  have hself : s'.desc d = ⟨some p, some p, 0, sizeOf i⟩ := by
    rw [hs']
    exact Function.update_self ..
  have hother : ∀ j e, e ∈ use j → s'.desc e = s.desc e := by
    intro j e he
    rw [hs']
    exact Function.update_of_ne (hne j e he) _ _
  have hheld' : ∀ q, q ∈ s'.held ↔ q = p ∨ q ∈ s.held := by
    intro q
    rw [hs']
    exact List.mem_cons
  have hword' : s'.word = word := by rw [hs']
  -- the other descriptors are as they were, and `d` has the new page
  exact {
    chains := by
      rw [hs']
      exact h.chains_push hd
    spares := by
      rw [hs']
      exact h.spares.2.update_of_notMem hgone
    nodup := nodup_added (hd i) h.nodup
    spare_nodup := hnodup
    apart := by
      intro j k e he he'
      rcases (hmem j e).mp he with he | ⟨hed, hj⟩
      · rcases (hmem k e).mp he' with he' | ⟨hed, -⟩
        · exact h.apart j k e he he'
        · exact absurd hed (hne j e he)
      · rcases (hmem k e).mp he' with he' | ⟨-, hk⟩
        · exact absurd hed (hne k e he')
        · rw [hj, hk]
    unused := by
      intro j e he
      rcases (hmem j e).mp he with he | ⟨rfl, -⟩
      · exact fun hm => h.unused j e he (List.mem_cons_of_mem d hm)
      · exact hgone
    sized := by
      intro j e he
      rcases (hmem j e).mp he with he | ⟨-, rfl⟩
      · exact h.sized j e he
      · exact hi
    buckets := by
      intro j e he
      rcases (hmem j e).mp he with he | ⟨rfl, rfl⟩
      · obtain ⟨page, free, hbucket⟩ := h.buckets j e he
        refine ⟨page, free, hbucket.congr (hother j e he) (fun a ha => ?_) fun _ _ => rfl⟩
        rw [hword']
        apply hword
        exact cells_of_ne (h.sized j e he) hi hbucket.isPage hpage (h.page_ne hp he hbucket.page_eq)
          ((hbucket.mem_iff a).mp ha).1
      · refine ⟨p, cells p (sizeOf j), ?_, hpage, ?_, ?_, nodup_cells hsize p, ?_, ?_⟩
        · rw [hself]
        · rw [hself]
        · rw [hself, hword']
          exact hcells
        · exact fun a => (and_iff_left_of_imp (h.unheld_page hi hpage hp a)).symm
        · rw [hself, length_cells]
          exact Nat.zero_add _
    busy := by
      intro j e he
      rcases (hmem j e).mp he with he | ⟨rfl, -⟩
      · right
        rw [hother j e he]
        exact (h.busy j e he).resolve_left fun heq => nomatch heq
      · exact Or.inl rfl
    pages := by
      intro j k e e' page he he' hpe hpe'
      rcases (hmem j e).mp he with hold₁ | ⟨hed, -⟩
      · rw [hother j e hold₁] at hpe
        rcases (hmem k e').mp he' with hold₂ | ⟨hed', -⟩
        · rw [hother k e' hold₂] at hpe'
          exact h.pages j k e e' page hold₁ hold₂ hpe hpe'
        · rw [hed', hself] at hpe'
          exact absurd (Option.some.inj hpe').symm (h.page_ne hp hold₁ hpe)
      · rw [hed, hself] at hpe
        rcases (hmem k e').mp he' with hold₂ | ⟨hed', -⟩
        · rw [hother k e' hold₂] at hpe'
          exact absurd (Option.some.inj hpe).symm (h.page_ne hp hold₂ hpe')
        · rw [hed, hed']
    used := by
      intro j e page he hpe
      rcases (hmem j e).mp he with he | ⟨rfl, -⟩
      · rw [hother j e he] at hpe
        obtain ⟨hheld, hnot⟩ := h.used j e page he hpe
        exact ⟨(hheld' page).mpr (Or.inr hheld), hnot⟩
      · rw [hself] at hpe
        cases hpe
        exact ⟨(hheld' p).mpr (Or.inl rfl), fun hm => hp (h.table_held p hm)⟩
    table_held := fun q hq => (hheld' q).mpr (Or.inr (h.table_held q hq))
    table := by
      intro e he
      apply h.table
      rcases he with he | ⟨j, he⟩
      · exact Or.inl (List.mem_cons_of_mem d he)
      · rcases (hmem j e).mp he with he | ⟨rfl, -⟩
        · exact Or.inr ⟨j, he⟩
        · exact Or.inl List.mem_cons_self
    held := by
      intro q hq
      rcases (hheld' q).mp hq with rfl | hq
      · exact Or.inr ⟨i, d, (hmem i d).mpr (Or.inr ⟨rfl, rfl⟩), by rw [hself]⟩
      · refine (h.held q hq).imp_right ?_
        rintro ⟨j, e, he, hpe⟩
        exact ⟨j, e, (hmem j e).mpr (Or.inl he), by rw [hother j e he]; exact hpe⟩
    held_nodup := by
      rw [hs']
      exact List.nodup_cons.mpr ⟨hp, h.held_nodup⟩
    object := by
      intro a len ha
      obtain ⟨j, e, page, hfits, he, hpe, hcell⟩ := h.object a len ha
      exact ⟨j, e, page, hfits, (hmem j e).mpr (Or.inl he), by rw [hother j e he]; exact hpe, hcell⟩ }

/-- `init_bucket_desc` adds the descriptors of a new page to the free ones. -/
theorem initBucketDesc (h : Inv s live use spare tables none) (hfresh : Fresh s.given s.held) :
    Post s.initBucketDesc
      (fun s' => s'.freeBucketDesc ≠ none ∧ s'.given = s.given.tail ∧ Fresh s'.given s'.held ∧
        s.held ⊆ s'.held ∧ ∃ spare tables, Inv s' live use spare tables none)
      fun stop => s.given = [] ∧ stop = .panic "Out of memory in init_bucket_desc()" := by
  simp only [Heap.initBucketDesc, Heap.getFreePage]
  cases hgiven : s.given with
  | nil => exact Post.stop ⟨rfl, rfl⟩
  | cons p given =>
    rw [hgiven] at hfresh
    obtain ⟨hnodup, hpages⟩ := hfresh
    obtain ⟨hpage, hp⟩ := hpages p List.mem_cons_self
    have hfull : 0 < pageSize / 16 := by decide
    refine Post.ret ⟨Option.some_ne_none p, rfl, fresh_tail hnodup hpages, List.subset_cons_self p _, _, _,
      h.addTable hpage hp given ?_ ?_⟩
    · exact fun hchain hout => carve_cells (by decide) hfull hchain hout
    · exact fun e he => carve_outside hfull he

/-- `malloc` carves a new page into cells of one size. -/
theorem openBucket (h : Inv s live use spare tables none) (hi : i < sizes.length)
    (hfresh : Fresh s.given s.held) (hspare : s.freeBucketDesc ≠ none) :
    Post (s.openBucket i (sizeOf i))
      (fun r => s.held ⊆ r.2.held ∧ ∃ use spare, r.1 ∈ use i ∧ (r.2.desc r.1).freeptr ≠ none ∧
        Inv r.2 live use spare tables (some r.1))
      fun stop => s.given = [] ∧ stop = .panic "Out of memory in kernel malloc()" := by
  obtain ⟨d, hstart⟩ := Option.ne_none_iff_exists'.mp hspare
  have hchain := h.spares
  rw [hstart] at hchain
  obtain ⟨spare, rfl, hrest⟩ := hchain.of_some
  unfold Heap.openBucket
  rw [hstart]
  simp only [Heap.getFreePage]
  cases hgiven : s.given with
  | nil => exact Post.stop ⟨rfl, rfl⟩
  | cons p given =>
    obtain ⟨hpage, hp⟩ := hfresh.2 p (by rw [hgiven]; exact List.mem_cons_self)
    have hfull : 0 < pageSize / sizeOf i := by
      revert i
      decide
    have hsize : 0 < sizeOf i := Nat.lt_of_lt_of_le (by decide) (sizeOf_spec i hi).1
    have hcells : Chain (carve (sizeOf i) none (pageSize / sizeOf i - 1) p s.word) (some p)
        (cells p (sizeOf i) ++ []) := carve_cells hsize hfull rfl fun _ _ => List.not_mem_nil
    rw [List.append_nil] at hcells
    refine Post.ret ⟨List.subset_cons_self p _, Function.update use i (d :: use i), spare, ?_, ?_, ?_⟩
    · rw [Function.update_self]
      exact List.mem_cons_self
    · show (Function.update s.desc d _ d).freeptr ≠ none
      rw [Function.update_self]
      exact Option.some_ne_none p
    · exact h.addBucket hi hpage hp given hcells (fun a ha => carve_outside hfull ha) rfl

end Inv

end Linux011.Malloc
