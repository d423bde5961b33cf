import Mathlib.Data.List.Infix
import Linux011.Blk.Transfers
import Linux011.Blk.Floppy

/-!
# Error handlers

`bad_rw_intr` and `bad_flp_intr` count an error of `CURRENT`, end the request if there were too many, and then look
at `CURRENT->errors` to decide what is to be done. When the request has been ended, `CURRENT` is the request that
stood behind it, or `NULL`.
-/

namespace Linux011.Blk

/-! ## Counts of errors -/

/-- What the steps of a driver do to the errors that are counted for the requests of its queue: one request comes, the
first ones are ended, and an error of the first one is counted or all are forgotten. -/
inductive ErrorStep (limit : Nat) : List Nat → List Nat → Prop
  | arrive {l l₁ l₂ : List Nat} (hl : l.tail = l₁ ++ l₂) : ErrorStep limit l (l.take 1 ++ (l₁ ++ 0 :: l₂))
  | ended {l l' : List Nat} (hl : l' <:+ l) : ErrorStep limit l l'
  | counted {e : Nat} {l : List Nat} (he : e + 1 < limit) : ErrorStep limit (e :: l) ((e + 1) :: l)
  | cleared {e : Nat} {l : List Nat} : ErrorStep limit (e :: l) (0 :: l)

/-- The first request is not to be given up yet, and the others have no errors. -/
structure Few (limit : Nat) (l : List Nat) : Prop where
  head : ∀ e ∈ l, e < limit
  tail : ∀ e ∈ l.tail, e = 0

/-- The count that the handler decides by, when a request that has `e` errors gets another one. -/
def judged (limit low e : Nat) (behind : List Nat) : Nat := if limit ≤ e + 1 then behind.headD low else e + 1

theorem ErrorStep.same {limit : Nat} {l l' : List Nat} (h : l' = l) : ErrorStep limit l l' := h ▸ .ended List.suffix_rfl

/-- A request that comes has no errors. -/
theorem ErrorStep.request {R : Type} {limit : Nat} (errors : R → Nat) {q l₁ l₂ : List R} {r : R} (hr : errors r = 0)
    (hq : q.tail = l₁ ++ l₂) :
    ErrorStep limit (q.map errors) ((q.take 1 ++ (l₁ ++ r :: l₂)).map errors) := by
  have htail : (q.map errors).tail = l₁.map errors ++ l₂.map errors := by
    rw [← List.map_tail, hq, List.map_append]
  have harrive : ErrorStep limit (q.map errors) _ := .arrive htail
  rw [← List.map_take, ← hr] at harrive
  simpa using harrive

theorem ErrorStep.few {limit : Nat} {l l' : List Nat} (h : ErrorStep limit l l') (hlimit : 0 < limit)
    (hl : Few limit l) : Few limit l' := by
  cases h with
  | @arrive l l₁ l₂ htail =>
    have hbehind : ∀ e ∈ l₁ ++ 0 :: l₂, e = 0 := by
      intro e he
      rcases List.mem_append.mp he with he | he
      · exact hl.tail e (htail ▸ List.mem_append_left _ he)
      · rcases List.mem_cons.mp he with rfl | he
        · rfl
        · exact hl.tail e (htail ▸ List.mem_append_right _ he)
    cases l with
    | nil => exact ⟨fun e he => hbehind e he ▸ hlimit, fun e he => hbehind e (List.mem_of_mem_tail he)⟩
    | cons e l =>
      refine ⟨fun n hn => ?_, hbehind⟩
      rcases List.mem_cons.mp hn with rfl | hn
      · exact hl.head n List.mem_cons_self
      · exact hbehind n hn ▸ hlimit
  | ended hsuffix =>
    -- the request that comes to the front has no errors, if it is another one
    refine ⟨fun e he => hl.head e (hsuffix.mem he), fun e he => ?_⟩
    obtain ⟨before, rfl⟩ := hsuffix
    cases before with
    | nil => exact hl.tail e he
    | cons n before => exact hl.tail e (List.mem_append_right _ (List.mem_of_mem_tail he))
  | counted he =>
    refine ⟨fun n hn => ?_, hl.tail⟩
    rcases List.mem_cons.mp hn with rfl | hn
    · exact he
    · exact hl.head n (List.mem_cons_of_mem _ hn)
  | cleared =>
    refine ⟨fun n hn => ?_, hl.tail⟩
    rcases List.mem_cons.mp hn with rfl | hn
    · exact hlimit
    · exact hl.head n (List.mem_cons_of_mem _ hn)

/-- The handler decides by the request that has failed as long as it does not give it up. -/
theorem judged_failed {limit low e : Nat} {behind : List Nat} (he : e + 1 < limit) :
    judged limit low e behind = e + 1 := if_neg (Nat.not_le.mpr he)

/-- Else it decides by the word at `NULL`, if nothing is behind the request. -/
theorem judged_alone {limit low e : Nat} (he : limit ≤ e + 1) : judged limit low e [] = low := if_pos he

/-- In a queue as the drivers have it, and with another request in it, it decides by no error at all. -/
theorem judged_behind {limit low e n : Nat} {behind : List Nat} (hfew : Few limit (e :: n :: behind))
    (he : limit ≤ e + 1) : judged limit low e (n :: behind) = 0 :=
  (if_pos he).trans (hfew.tail n List.mem_cons_self)

/-- What is decided by the count of the failed request alone. -/
theorem judged_same_iff (limit half low e : Nat) (behind : List Nat) :
    (∀ low' behind', (∀ n ∈ behind', n = 0) →
      decide (half < judged limit low' e behind') = decide (half < judged limit low e behind)) ↔ e + 1 < limit := by
  constructor
  · intro h
    by_contra hge
    have hge := Nat.not_lt.mp hge
    -- alone in the queue, with two words at `NULL`
    have hzero := h 0 [] (fun n hn => absurd hn List.not_mem_nil)
    have hmany := h (half + 1) [] (fun n hn => absurd hn List.not_mem_nil)
    rw [judged_alone hge] at hzero hmany
    rw [← hmany] at hzero
    simp at hzero
  · intro he low' behind' _
    rw [judged_failed he, judged_failed he]

/-! ## The hard disk -/

namespace Hd

/-- Whether `bad_rw_intr` asks for a reset. -/
def resets (D : Disks) (r : HdRequest) (rest : List HdRequest) (s : Hd) : Bool :=
  (badRwIntr D r rest { s with reset := false }).reset

/-- At an error of `r`, with `rest` behind it: there is a request when `bad_rw_intr` looks at `CURRENT` again, and what
it decides is the same in all queues whose first request has as many errors and whose other requests have none. -/
structure Judges (D : Disks) (r : HdRequest) (rest : List HdRequest) (s : Hd) : Prop where
  current : (badRwIntr D r rest s).queue ≠ []
  failed : ∀ (D' : Disks) (r' : HdRequest) (rest' : List HdRequest) (s' : Hd), r'.errors = r.errors →
    (∀ q ∈ rest', q.errors = 0) → resets D' r' rest' s' = resets D r rest s

variable {D : Disks} {s : Hd} {r : HdRequest} {rest : List HdRequest}

theorem currentErrors_eq (D : Disks) (s : Hd) : s.currentErrors D = (s.queue.map HdRequest.errors).headD D.low := by
  unfold currentErrors
  split
  · next hqueue => rw [hqueue]; rfl
  · next hqueue => rw [hqueue]; rfl

/-- Between the two looks at `CURRENT`. -/
theorem badRwIntr_spec (D : Disks) (r : HdRequest) (rest : List HdRequest) (s : Hd) : ∃ s₁ : Hd, s₁.reset = s.reset ∧
    s₁.queue = (if maxErrors ≤ r.errors + 1 then rest
      else { r with errors := r.errors + 1, counted := r.counted + 1 } :: rest) ∧
    badRwIntr D r rest s = if maxErrors / 2 < s₁.currentErrors D then { s₁ with reset := true } else s₁ := by
  let r' := { r with errors := r.errors + 1, counted := r.counted + 1 }
  refine ⟨if maxErrors ≤ r'.errors then s.endRequest r' rest false else { s with queue := r' :: rest }, ?_, ?_, rfl⟩
  · split
    · rfl
    · rfl
  · split
    · rfl
    · rfl

theorem badRwIntr_queue (D : Disks) (r : HdRequest) (rest : List HdRequest) (s : Hd) :
    (badRwIntr D r rest s).queue = if maxErrors ≤ r.errors + 1 then rest
      else { r with errors := r.errors + 1, counted := r.counted + 1 } :: rest := by
  obtain ⟨s₁, -, hqueue, heq⟩ := badRwIntr_spec D r rest s
  rw [heq, ← hqueue]
  split
  · rfl
  · rfl

theorem resets_eq (D : Disks) (r : HdRequest) (rest : List HdRequest) (s : Hd) :
    resets D r rest s = decide (maxErrors / 2 < judged maxErrors D.low r.errors (rest.map HdRequest.errors)) := by
  obtain ⟨s₁, hreset, hqueue, heq⟩ := badRwIntr_spec D r rest { s with reset := false }
  have hcount : s₁.currentErrors D = judged maxErrors D.low r.errors (rest.map HdRequest.errors) := by
    rw [currentErrors_eq, hqueue]
    unfold judged
    split
    · rfl
    · rfl
  unfold resets
  rw [heq, hcount]
  split
  · next h => exact (decide_eq_true h).symm
  · next h => exact hreset.trans (decide_eq_false h).symm

/-- `bad_rw_intr` judges by the failed request as long as it does not give it up. -/
theorem judges_iff : Judges D r rest s ↔ r.errors + 1 < maxErrors := by
  constructor
  · intro h
    apply (judged_same_iff maxErrors (maxErrors / 2) D.low r.errors (rest.map HdRequest.errors)).mp
    intro low behind hbehind
    have hmap : (behind.map fun errors => { r with errors }).map HdRequest.errors = behind := by
      rw [List.map_map]
      exact List.map_id behind
    have hsame := h.failed { D with low } r (behind.map fun errors => { r with errors }) s rfl (by simpa using hbehind)
    rw [resets_eq, resets_eq, hmap] at hsame
    exact hsame
  · intro he
    refine ⟨?_, fun D' r' rest' s' hr' _ => ?_⟩
    · rw [badRwIntr_queue, if_neg (Nat.not_le.mpr he)]
      exact List.cons_ne_nil _ _
    · rw [resets_eq, resets_eq, judged_failed he, judged_failed (hr' ▸ he), hr']

/-! ### Runs -/

def counts (s : Hd) : List Nat := s.queue.map HdRequest.errors

variable {s' : Hd}

theorem badRwIntr_counts (D : Disks) (r : HdRequest) (rest : List HdRequest) (s : Hd) :
    ErrorStep maxErrors ((r :: rest).map HdRequest.errors) (badRwIntr D r rest s).counts := by
  unfold counts
  rw [badRwIntr_queue]
  split
  · exact .ended (List.suffix_cons _ _)
  · next hfew => exact .counted (Nat.not_le.mp hfew)

theorem writeOut_counts (D : Disks) (drq : Bool) (r : HdRequest) (rest : List HdRequest) (s : Hd) :
    ErrorStep maxErrors ((r :: rest).map HdRequest.errors) (s.writeOut D drq r rest).counts := by
  cases drq with
  | true => exact .same rfl
  | false => exact badRwIntr_counts D r rest s

theorem turn_counts {ready drq : Bool} (hok : s.turn D ready drq = .ok s') :
    ErrorStep maxErrors s.counts s'.counts := by
  unfold Hd.turn at hok
  split at hok
  · cases hok
    exact .same rfl
  · next r rest hqueue =>
    have hcounts : s.counts = (r :: rest).map HdRequest.errors := congrArg _ hqueue
    simp only at hok
    split at hok
    · cases hok
      rw [hcounts]
      exact .ended (List.suffix_cons _ _)
    · split at hok
      · cases hdOut_ok hok
        exact .same rfl
      · split at hok
        · cases hdOut_ok hok
          exact .same rfl
        · split at hok
          · obtain ⟨s₁, -, rfl⟩ := map_ok hok
            rw [hcounts]
            exact writeOut_counts D drq r rest s₁
          · cases hdOut_ok hok
            exact .same rfl

theorem readIntr_counts {bad : Bool} (hok : s.readIntr D bad = .ok s') : ErrorStep maxErrors s.counts s'.counts := by
  unfold Hd.readIntr at hok
  split at hok
  · cases hok
  · next r rest hqueue =>
    have hcounts : s.counts = (r :: rest).map HdRequest.errors := congrArg _ hqueue
    rw [hcounts]
    simp only at hok
    split at hok
    · cases hok
      exact badRwIntr_counts D r rest s
    · split at hok
      · cases hok
        exact .cleared
      · cases hok
        exact .ended (List.suffix_cons _ _)

theorem writeIntr_counts {bad : Bool} (hok : s.writeIntr D bad = .ok s') : ErrorStep maxErrors s.counts s'.counts := by
  unfold Hd.writeIntr at hok
  split at hok
  · cases hok
  · next r rest hqueue =>
    have hcounts : s.counts = (r :: rest).map HdRequest.errors := congrArg _ hqueue
    rw [hcounts]
    simp only at hok
    split at hok
    · cases hok
      exact badRwIntr_counts D r rest s
    · split at hok
      · cases hok
        exact .same rfl
      · cases hok
        exact .ended (List.suffix_cons _ _)

theorem recalIntr_counts {bad : Bool} (hok : s.recalIntr D bad = .ok s') : ErrorStep maxErrors s.counts s'.counts := by
  unfold Hd.recalIntr at hok
  split at hok
  · split at hok
    · cases hok
    · next r rest hqueue =>
      have hcounts : s.counts = (r :: rest).map HdRequest.errors := congrArg _ hqueue
      cases hok
      rw [hcounts]
      exact badRwIntr_counts D r rest s
  · cases hok
    exact .same rfl

theorem interrupt_counts {bad : Bool} (hok : s.interrupt D bad = .ok s') : ErrorStep maxErrors s.counts s'.counts := by
  unfold Hd.interrupt at hok
  simp only at hok
  split at hok
  · cases hok
    exact .same rfl
  · exact readIntr_counts (s := { s with doHd := none, pending := false }) hok
  · exact writeIntr_counts (s := { s with doHd := none, pending := false }) hok
  · exact recalIntr_counts (s := { s with doHd := none, pending := false }) hok

theorem step_counts (hstep : HdStep D s s') : ErrorStep maxErrors s.counts s'.counts := by
  cases hstep with
  | arrive hidle hfresh hqueue => exact .request HdRequest.errors hfresh.1 hqueue
  | turn ready drq hrunning hok => exact turn_counts hok
  | interrupt bad hidle hpending hok => exact interrupt_counts hok

/-- In every run only `CURRENT` has errors, and not too many. -/
theorem run_few (hrun : Relation.ReflTransGen (HdStep D) Hd.start s) : Few maxErrors s.counts :=
  Lib.invariant_of_run (I := fun s : Hd => Few maxErrors s.counts)
    (fun _ _ hfew hstep => (step_counts hstep).few (by decide) hfew)
    ⟨fun e he => absurd he List.not_mem_nil, fun e he => absurd he List.not_mem_nil⟩ hrun

/-- In no run is there a reset when a request is given up and another one stands behind it. -/
theorem resets_given_up {q : HdRequest} (hrun : Relation.ReflTransGen (HdStep D) Hd.start s)
    (hqueue : s.queue = r :: q :: rest) (hgive : maxErrors ≤ r.errors + 1) : resets D r (q :: rest) s = false := by
  have hfew := run_few hrun
  unfold counts at hfew
  rw [hqueue] at hfew
  rw [resets_eq, List.map_cons, judged_behind hfew hgive]
  decide

end Hd

/-! ## The floppy disk -/

namespace Fd

/-- Whether `bad_flp_intr` asks for a reset, and whether it asks for a recalibration. -/
def asks (F : Floppies) (r : FdRequest) (rest : List FdRequest) (s : Fd) : Bool × Bool :=
  let s' := badFlpIntr F r rest { s with reset := false, recalibrate := false }
  (s'.reset, s'.recalibrate)

/-- At an error of `r`, with `rest` behind it: there is a request when `bad_flp_intr` looks at `CURRENT` again, and
what it decides is the same in all queues whose first request has as many errors and whose other requests have none. -/
structure Judges (F : Floppies) (r : FdRequest) (rest : List FdRequest) (s : Fd) : Prop where
  current : (badFlpIntr F r rest s).queue ≠ []
  failed : ∀ (F' : Floppies) (r' : FdRequest) (rest' : List FdRequest) (s' : Fd), r'.errors = r.errors →
    (∀ q ∈ rest', q.errors = 0) → asks F' r' rest' s' = asks F r rest s

variable {F : Floppies} {s s' : Fd} {r : FdRequest} {rest : List FdRequest}

theorem currentErrors_eq (F : Floppies) (s : Fd) : s.currentErrors F = (s.queue.map FdRequest.errors).headD F.low := by
  unfold currentErrors
  split
  · next hqueue => rw [hqueue]; rfl
  · next hqueue => rw [hqueue]; rfl

/-- Between the two looks at `CURRENT`. -/
theorem badFlpIntr_spec (F : Floppies) (r : FdRequest) (rest : List FdRequest) (s : Fd) : ∃ s₁ : Fd,
    s₁.reset = s.reset ∧ s₁.recalibrate = s.recalibrate ∧
    s₁.queue = (if maxErrors + 1 ≤ r.errors + 1 then rest else { r with errors := r.errors + 1 } :: rest) ∧
    badFlpIntr F r rest s =
      if maxErrors / 2 < s₁.currentErrors F then { s₁ with reset := true } else { s₁ with recalibrate := true } := by
  let r' := { r with errors := r.errors + 1 }
  refine ⟨if maxErrors < r'.errors then s.floppyDeselect.endRequest r' rest false else { s with queue := r' :: rest },
    ?_, ?_, ?_, rfl⟩
  · split
    · rfl
    · rfl
  · split
    · rfl
    · rfl
  · split
    · next hgive => exact (if_pos hgive).symm
    · next hgive => exact (if_neg hgive).symm

theorem badFlpIntr_queue (F : Floppies) (r : FdRequest) (rest : List FdRequest) (s : Fd) :
    (badFlpIntr F r rest s).queue =
      if maxErrors + 1 ≤ r.errors + 1 then rest else { r with errors := r.errors + 1 } :: rest := by
  obtain ⟨s₁, -, -, hqueue, heq⟩ := badFlpIntr_spec F r rest s
  rw [heq, ← hqueue]
  split
  · rfl
  · rfl

theorem asks_eq (F : Floppies) (r : FdRequest) (rest : List FdRequest) (s : Fd) :
    asks F r rest s =
      let many := decide (maxErrors / 2 < judged (maxErrors + 1) F.low r.errors (rest.map FdRequest.errors))
      (many, !many) := by
  obtain ⟨s₁, hreset, hrecal, hqueue, heq⟩ := badFlpIntr_spec F r rest { s with reset := false, recalibrate := false }
  have hcount : s₁.currentErrors F = judged (maxErrors + 1) F.low r.errors (rest.map FdRequest.errors) := by
    rw [currentErrors_eq, hqueue]
    unfold judged
    split
    · rfl
    · rfl
  unfold asks
  simp only [heq, hcount]
  split
  · next h => rw [decide_eq_true h, hrecal]; rfl
  · next h => rw [decide_eq_false h, hreset]; rfl

/-- `bad_flp_intr` judges by the failed request as long as it does not give it up. -/
theorem judges_iff : Judges F r rest s ↔ r.errors + 1 < maxErrors + 1 := by
  constructor
  · intro h
    apply (judged_same_iff (maxErrors + 1) (maxErrors / 2) F.low r.errors (rest.map FdRequest.errors)).mp
    intro low behind hbehind
    have hmap : (behind.map fun errors => { r with errors }).map FdRequest.errors = behind := by
      rw [List.map_map]
      exact List.map_id behind
    have hsame := h.failed { F with low } r (behind.map fun errors => { r with errors }) s rfl (by simpa using hbehind)
    rw [asks_eq, asks_eq, hmap] at hsame
    exact (Prod.mk.inj hsame).1
  · intro he
    refine ⟨?_, fun F' r' rest' s' hr' _ => ?_⟩
    · rw [badFlpIntr_queue, if_neg (Nat.not_le.mpr he)]
      exact List.cons_ne_nil _ _
    · rw [asks_eq, asks_eq, judged_failed he, judged_failed (hr' ▸ he), hr']

/-! ### Runs -/

def counts (s : Fd) : List Nat := s.queue.map FdRequest.errors

theorem counts_kept (h : s'.queue = s.queue) : ErrorStep (maxErrors + 1) s.counts s'.counts :=
  .same (congrArg (List.map FdRequest.errors) h)

theorem badFlpIntr_counts (F : Floppies) (r : FdRequest) (rest : List FdRequest) (s : Fd) :
    ErrorStep (maxErrors + 1) ((r :: rest).map FdRequest.errors) (badFlpIntr F r rest s).counts := by
  unfold counts
  rw [badFlpIntr_queue]
  split
  · exact .ended (List.suffix_cons _ _)
  · next hfew => exact .counted (Nat.not_le.mp hfew)

@[simp] theorem outputBytes_queue (taken : Bool) (s : Fd) : (s.outputBytes taken).queue = s.queue := by
  unfold outputBytes
  split
  · rfl
  · rfl

@[simp] theorem result_queue (a : Answer) (s : Fd) : (s.result a).2.queue = s.queue := by
  unfold result
  split
  · rfl
  · simp only
    split
    · rfl
    · rfl

@[simp] theorem callIfReset_queue (s : Fd) : s.callIfReset.queue = s.queue := by
  unfold callIfReset
  split
  · rfl
  · rfl

@[simp] theorem specify_queue (F : Floppies) (taken : Bool) (s : Fd) : (s.specify F taken).queue = s.queue := by
  unfold specify
  simp only
  split
  · exact outputBytes_queue _ _
  · rfl

@[simp] theorem senseFailed_queue (a : Answer) (s : Fd) : (s.senseFailed a).2.queue = s.queue := result_queue a s

theorem setupRwFloppy_queue {taken : Bool} (hok : s.setupRwFloppy taken = .ok s') : s'.queue = s.queue := by
  unfold setupRwFloppy at hok
  split at hok
  · cases hok
  · cases hok
    simp

theorem transfer_queue {specified taken : Bool} (hok : s.transfer F specified taken = .ok s') :
    s'.queue = s.queue := by
  unfold transfer at hok
  simp only at hok
  split at hok
  · cases hok
    exact specify_queue ..
  · split at hok
    · exact (setupRwFloppy_queue hok).trans (specify_queue ..)
    · cases hok
      simp

theorem recalInterrupt_queue (sensed : Bool) (a : Answer) (s : Fd) : (s.recalInterrupt sensed a).queue = s.queue := by
  unfold recalInterrupt
  simp only
  split
  · simp [call]
  · simp [call]

theorem unexpectedFloppyInterrupt_queue (sensed : Bool) (a : Answer) (s : Fd) :
    (s.unexpectedFloppyInterrupt sensed a).queue = s.queue := by
  unfold unexpectedFloppyInterrupt
  simp only
  split
  · simp
  · simp

theorem resetInterrupt_queue (sensed : Bool) (a : Answer) (specified : Bool) (s : Fd) :
    (s.resetInterrupt sensed a specified).queue = s.queue := by
  unfold resetInterrupt
  simp [call]

theorem ticksToFloppyOn_queue (nr : Nat) (s : Fd) : (s.ticksToFloppyOn nr).queue = s.queue := by
  unfold ticksToFloppyOn
  split
  · rfl
  · rfl

/-- The loop at `repeat` ends the requests that are out of range. -/
theorem initRequest_queue {l : List FdRequest} (hqueue : s.queue = l) (hok : initRequest F l s = .ok s') :
    s'.queue <:+ l := by
  induction l generalizing s with
  | nil =>
    cases hok
    rw [hqueue]
  | cons r rest ih =>
    rw [initRequest] at hok
    simp only at hok
    split at hok
    · exact (ih rfl hok).trans (List.suffix_cons _ _)
    · split at hok
      · cases hok
      · cases hok
        show (ticksToFloppyOn ..).queue <:+ _
        rw [ticksToFloppyOn_queue]
        exact hqueue ▸ List.suffix_rfl

theorem doFdRequest_counts {taken : Bool} (hok : s.doFdRequest F taken = .ok s') :
    ErrorStep (maxErrors + 1) s.counts s'.counts := by
  unfold doFdRequest at hok
  simp only at hok
  split at hok
  · cases hok
    exact .same rfl
  · split at hok
    · cases hok
      apply counts_kept
      unfold recalibrateFloppy
      simp
    · have hsuffix := initRequest_queue (s := { s with running := false, seek := false }) rfl hok
      exact .ended (hsuffix.map _)

theorem rwInterrupt_counts {a : Answer} (hok : s.rwInterrupt F a = .ok s') :
    ErrorStep (maxErrors + 1) s.counts s'.counts := by
  have hsame := result_queue a s
  unfold rwInterrupt at hok
  simp only at hok
  split at hok
  · cases hok
  · next r rest hqueue =>
    have hcounts : s.counts = (r :: rest).map FdRequest.errors := congrArg _ (hsame.symm.trans hqueue)
    rw [hcounts]
    split at hok
    · split at hok
      · cases hok
        exact .ended (List.suffix_cons _ _)
      · cases hok
        exact badFlpIntr_counts F r rest _
    · cases hok
      exact .ended (List.suffix_cons _ _)

theorem seekInterrupt_counts {sensed taken : Bool} {a : Answer} (hok : s.seekInterrupt F sensed a taken = .ok s') :
    ErrorStep (maxErrors + 1) s.counts s'.counts := by
  have hsame : ((s.outputBytes sensed).result a).2.queue = s.queue := by simp
  unfold seekInterrupt at hok
  simp only at hok
  split at hok
  · split at hok
    · cases hok
    · next r rest hqueue =>
      have hcounts : s.counts = (r :: rest).map FdRequest.errors := congrArg _ (hsame.symm.trans hqueue)
      cases hok
      rw [hcounts]
      exact badFlpIntr_counts F r rest _
  · exact counts_kept ((setupRwFloppy_queue hok).trans hsame)

theorem interrupt_counts {sensed taken : Bool} {a : Answer} (hok : s.interrupt F sensed a taken = .ok s') :
    ErrorStep (maxErrors + 1) s.counts s'.counts := by
  unfold Fd.interrupt at hok
  simp only at hok
  split at hok
  · cases hok
    exact counts_kept (unexpectedFloppyInterrupt_queue ..)
  · exact rwInterrupt_counts (s := { s with doFloppy := none }) hok
  · exact seekInterrupt_counts (s := { s with doFloppy := none }) hok
  · cases hok
    exact counts_kept (recalInterrupt_queue ..)
  · cases hok
    exact counts_kept (resetInterrupt_queue ..)

theorem fire_queue {specified taken : Bool} {t : FdTimer} (hok : s.fire F specified taken t = .ok s') :
    s'.queue = s.queue := by
  cases t with
  | transfer => exact transfer_queue hok
  | floppyOnInterrupt =>
    unfold fire floppyOnInterrupt at hok
    simp only at hok
    split at hok
    · cases hok
      rfl
    · exact transfer_queue (s := { s with selected := true }) hok

theorem step_counts (hstep : FdStep F s s') : ErrorStep (maxErrors + 1) s.counts s'.counts := by
  cases hstep with
  | arrive hidle hfresh hqueue => exact .request FdRequest.errors hfresh hqueue
  | request taken hrunning hok => exact doFdRequest_counts hok
  | interrupt sensed a taken hidle hok => exact interrupt_counts hok
  | timer specified taken hidle htimers hok =>
    have hqueue := fire_queue hok
    exact counts_kept hqueue
  | floppyOn hidle hnr => exact counts_kept (ticksToFloppyOn_queue ..)

theorem run_few (hrun : Relation.ReflTransGen (FdStep F) start s) : Few (maxErrors + 1) s.counts :=
  Lib.invariant_of_run (I := fun s : Fd => Few (maxErrors + 1) s.counts)
    (fun _ _ hfew hstep => (step_counts hstep).few (by decide) hfew)
    ⟨fun e he => absurd he List.not_mem_nil, fun e he => absurd he List.not_mem_nil⟩ hrun

theorem asks_given_up {q : FdRequest} (hrun : Relation.ReflTransGen (FdStep F) start s)
    (hqueue : s.queue = r :: q :: rest) (hgive : maxErrors < r.errors + 1) :
    asks F r (q :: rest) s = (false, true) := by
  have hfew := run_few hrun
  unfold counts at hfew
  rw [hqueue] at hfew
  rw [asks_eq, List.map_cons, judged_behind hfew hgive]
  decide

end Fd

/-! ## Both drivers -/

/-- The handlers judge by the request that has failed, of whichever queue it is the first one, if and only if they do
not give it up. -/
theorem handlers_judge_iff (D : Disks) (r : HdRequest) (rest : List HdRequest) (s : Hd) (F : Floppies) (p : FdRequest)
    (behind : List FdRequest) (t : Fd) :
    (Hd.Judges D r rest s ↔ r.errors + 1 < maxErrors) ∧ (Fd.Judges F p behind t ↔ p.errors + 1 ≤ Fd.maxErrors) :=
  ⟨Hd.judges_iff, Fd.judges_iff.trans Nat.lt_succ_iff⟩

/-! ### The seventh error of a write -/

/-- A disk as `smallDisk`. The word at 8 is an entry of the page directory. -/
def bootDisk : Disks := { smallDisk with low := 0x3007 }

def writeRequest (b : Nat) : HdRequest := ⟨1, .write, 0, b * 2 % 2 ^ 32, 2, 4096, ⟨b, 4096⟩, [], 0⟩

/-- What a turn of the loop leaves when the controller does not ask for the data. -/
def turned (s : Hd) : Hd :=
  match s.turn bootDisk true false with
  | .ok s' => s'
  | .error _ => s

/-- What an interrupt leaves that tells of an error. -/
def failed (s : Hd) : Hd :=
  match s.interrupt bootDisk true with
  | .ok s' => s'
  | .error _ => s

theorem turned_step {s : Hd} (hrunning : s.running = true) (hok : (s.turn bootDisk true false).isOk = true) :
    HdStep bootDisk s (turned s) := by
  refine .turn true false hrunning ?_
  unfold turned
  cases hturn : s.turn bootDisk true false with
  | ok s' => rfl
  | error e =>
    rw [hturn] at hok
    cases hok

theorem failed_step {s : Hd} (hidle : s.running = false) (hpending : s.pending = true)
    (hok : (s.interrupt bootDisk true).isOk = true) : HdStep bootDisk s (failed s) := by
  refine .interrupt true hidle hpending ?_
  unfold failed
  cases hinterrupt : s.interrupt bootDisk true with
  | ok s' => rfl
  | error e =>
    rw [hinterrupt] at hok
    cases hok

def asked : Hd := { Hd.start with queue := [writeRequest 5], running := true }

/-- Four writes for which the controller does not ask for the data. -/
def fourErrors : Hd := turned (turned (turned (turned asked)))

/-- The controller is reset three times, and the first two times there is an error. -/
def sixErrors : Hd := turned (failed (turned (failed (turned fourErrors))))

theorem run_four : Relation.ReflTransGen (HdStep bootDisk) Hd.start fourErrors := by
  have harrive : HdStep bootDisk Hd.start asked :=
    @HdStep.arrive bootDisk Hd.start (writeRequest 5) [] [] rfl ⟨rfl, rfl, rfl, rfl, rfl, rfl⟩ rfl
  exact ((((Relation.ReflTransGen.single harrive).tail (turned_step rfl rfl)).tail (turned_step rfl rfl)).tail
    (turned_step rfl rfl)).tail (turned_step rfl rfl)

theorem run_six : Relation.ReflTransGen (HdStep bootDisk) Hd.start sixErrors :=
  ((((run_four.tail (turned_step rfl rfl)).tail (failed_step rfl rfl rfl)).tail (turned_step rfl rfl)).tail
    (failed_step rfl rfl rfl)).tail (turned_step rfl rfl)

/-- The request alone, and with another one behind it: there is no request any more when the handler looks at `CURRENT`
again, and what it finds asks for a reset; or there is one, which does not. -/
theorem seventh_error : ∃ (r q : HdRequest) (s s' : Hd), r.errors = 6 ∧
    (Relation.ReflTransGen (HdStep bootDisk) Hd.start s ∧ s.queue = [r] ∧ ¬ Hd.Judges bootDisk r [] s ∧
      (Hd.badRwIntr bootDisk r [] s).queue = [] ∧ Hd.resets bootDisk r [] s = true) ∧
    Relation.ReflTransGen (HdStep bootDisk) Hd.start s' ∧ s'.queue = [r, q] ∧ ¬ Hd.Judges bootDisk r [q] s' ∧
      Hd.resets bootDisk r [q] s' = false := by
  have hqueue : sixErrors.queue = [{ writeRequest 5 with errors := 6, counted := 6 }] := rfl
  have harrive := @HdStep.arrive bootDisk sixErrors (writeRequest 7) [] [] rfl ⟨rfl, rfl, rfl, rfl, rfl, rfl⟩ rfl
  refine ⟨_, writeRequest 7, sixErrors, _, ?_, ⟨run_six, hqueue, fun h => h.current rfl, rfl, rfl⟩,
    run_six.tail harrive, ?_, fun h => ?_, rfl⟩
  · rfl
  · rfl
  · have hsame := h.failed bootDisk { writeRequest 5 with errors := 6, counted := 6 } [] sixErrors rfl
      (fun q hq => absurd hq List.not_mem_nil)
    cases hsame

end Linux011.Blk
