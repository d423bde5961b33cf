import Mathlib.Data.Prod.Lex
import Linux011.Blk.Queues
import Linux011.Lib.Elevator

/-!
# The elevator

`add_request` and the removal of `CURRENT` by `end_request`, on the queue of one device. `IN_ORDER` compares keys,
and `add_request` puts a request behind the one that `Lib.behind` says.
-/

namespace Linux011.Blk

open Linux011.Lib

/-- What `IN_ORDER` compares. -/
def key {B : Type _} (r : Request B) : ℕ ×ₗ ℤ ×ₗ ℕ := toLex (r.cmd.toNat, toLex (r.dev, r.sector))

theorem inOrder_iff {B : Type _} (r r' : Request B) : inOrder r r' = true ↔ key r < key r' := by
  have hcmd : r.cmd = r'.cmd ↔ r.cmd.toNat = r'.cmd.toNat := by
    cases r.cmd <;> cases r'.cmd <;> decide
  simp only [inOrder, key, Prod.Lex.toLex_lt_toLex, Bool.or_eq_true, Bool.and_eq_true, decide_eq_true_eq, beq_iff_eq,
    hcmd]

/-- The search of `add_request` along the queue. -/
theorem findPlace_behind {B : Type _} {request : Nat → Request B} {req : Nat} {fuel a : Nat} {l : List Nat}
    (h : Chain (fun r => (request r).next) (some a) (a :: l)) (hlen : (a :: l).length ≤ fuel) :
    ∃ l₁ p l₂, a :: l = l₁ ++ p :: l₂ ∧ findPlace request req fuel a = some p ∧
      a :: behind (fun r => key (request r)) req a l = l₁ ++ p :: req :: l₂ := by
  induction fuel generalizing a l with
  | zero => cases hlen
  | succ fuel ih =>
    obtain ⟨-, htail⟩ := h
    cases l with
    | nil =>
      have hnext : (request a).next = none := htail
      exact ⟨[], a, [], rfl, by rw [findPlace, hnext], rfl⟩
    | cons b l =>
      have hnext : (request a).next = some b := htail.1
      simp only [findPlace, hnext, Bool.and_eq_true, Bool.or_eq_true, Bool.not_eq_true', ← Bool.not_eq_true,
        inOrder_iff, behind]
      split
      · exact ⟨[], a, b :: l, rfl, rfl, rfl⟩
      · have htail : Chain (fun r => (request r).next) (some b) (b :: l) := hnext ▸ htail
        obtain ⟨l₁, p, l₂, heq, hfind, hbehind⟩ := ih htail (Nat.le_of_succ_le_succ hlen)
        exact ⟨a :: l₁, p, l₂, by rw [heq]; rfl, hfind, by rw [hbehind]; rfl⟩

namespace Dev

variable {T B : Type _} [DecidableEq T] [DecidableEq B]

/-- What happens to the queue of major `m`. A free slot is filled in, and its key is none of those queued; or
`CURRENT` is completed. -/
inductive QueueStep (m : Nat) : Dev T B → Dev T B → Prop
  | insert {s s' : Dev T B} (req : Nat) (r : Request B) (hreq : req < nrRequest) (hfree : (s.request req).dev < 0)
      (hdev : 0 ≤ r.dev)
      (hkey : ∀ l, Chain (fun x => (s.request x).next) (s.current m) l → ∀ x ∈ l, key (s.request x) ≠ key r)
      (hadd : (s.setRequest req fun _ => r).addRequest m req = some s') : QueueStep m s s'
  | remove {s : Dev T B} {r : Nat} (uptodate : Bool) (hcurrent : s.current m = some r) :
      QueueStep m s (s.endRequest m r uptodate)

/-- The queue of major `m` is `q`, in two runs, of requests in slots that are in use. -/
structure Elevator (m : Nat) (s : Dev T B) (q : List Nat) : Prop where
  chain : Chain (fun r => (s.request r).next) (s.current m) q
  nodup : q.Nodup
  slot : ∀ r ∈ q, r < nrRequest ∧ 0 ≤ (s.request r).dev
  runs : TwoRuns (fun r => key (s.request r)) q

variable {m : Nat} {s s' : Dev T B} {q : List Nat} {req : Nat} {r : Request B}

omit [DecidableEq T] [DecidableEq B] in
/-- `Elevator` looks at the links, the keys and the devices of the slots in the queue. -/
theorem twoRuns_congr {k k' : Nat → ℕ ×ₗ ℤ ×ₗ ℕ} (h : TwoRuns k q) (hsame : ∀ x ∈ q, k' x = k x) : TwoRuns k' q := by
  obtain ⟨u, v, rfl, hu, hv⟩ := h
  refine ⟨u, v, rfl, hu.imp_of_mem fun ha hb hab => ?_, hv.imp_of_mem fun ha hb hab => ?_⟩
  · rw [hsame _ (List.mem_append_left v ha), hsame _ (List.mem_append_left v hb)]
    exact hab
  · rw [hsame _ (List.mem_append_right u ha), hsame _ (List.mem_append_right u hb)]
    exact hab

/-- The queue with the new request, behind its head. -/
def inserted (k : Nat → ℕ ×ₗ ℤ ×ₗ ℕ) (req : Nat) : List Nat → List Nat
  | [] => [req]
  | a :: l => a :: behind k req a l

omit [DecidableEq T] [DecidableEq B] in
theorem inserted_perm (k : Nat → ℕ ×ₗ ℤ ×ₗ ℕ) (req : Nat) (q : List Nat) : (inserted k req q).Perm (req :: q) := by
  cases q with
  | nil => exact List.Perm.refl _
  | cons a l => exact ((behind_perm k req a l).cons a).trans (List.Perm.swap req a l)

omit [DecidableEq T] [DecidableEq B] in
theorem inserted_sublist (k : Nat → ℕ ×ₗ ℤ ×ₗ ℕ) (req : Nat) (q : List Nat) : List.Sublist q (inserted k req q) := by
  cases q with
  | nil => exact List.nil_sublist _
  | cons a l => exact (behind_sublist k req a l).cons_cons a

omit [DecidableEq T] [DecidableEq B] in
theorem inserted_runs {k : Nat → ℕ ×ₗ ℤ ×ₗ ℕ} (h : TwoRuns k q) (hk : ∀ x ∈ q, k x ≠ k req) :
    TwoRuns k (inserted k req q) := by
  cases q with
  | nil => exact Increasing.twoRuns (List.pairwise_singleton _ req)
  | cons a l => exact behind_twoRuns h hk

omit [DecidableEq T] in
@[simp] theorem clearDirt_request (o : Option B) : (s.clearDirt o).request = s.request := by
  cases o <;> rfl

omit [DecidableEq T] in
@[simp] theorem clearDirt_current (o : Option B) : (s.clearDirt o).current = s.current := by
  cases o <;> rfl

omit [DecidableEq T] [DecidableEq B] in
/-- A link is neither a key nor a device. -/
theorem setNext_same (n : Option Nat) (x y : Nat) :
    key ((s.setRequest y fun q => { q with next := n }).request x) = key (s.request x) ∧
      ((s.setRequest y fun q => { q with next := n }).request x).dev = (s.request x).dev := by
  by_cases hx : x = y
  · rw [hx]
    simp [setRequest, key]
  · simp [setRequest, hx]

omit [DecidableEq T] [DecidableEq B] in
theorem linkBehind_same (p x : Nat) : key ((s.linkBehind req p).request x) = key (s.request x) ∧
    ((s.linkBehind req p).request x).dev = (s.request x).dev := by
  obtain ⟨hkey, hdev⟩ := s.setNext_same (s.request p).next x req
  obtain ⟨hkey', hdev'⟩ := setNext_same (s := s.setRequest req fun q => { q with next := (s.request p).next })
    (some req) x p
  exact ⟨hkey'.trans hkey, hdev'.trans hdev⟩

/-- The keys when slot `req` has been filled in with `r`. -/
def keys (s : Dev T B) (req : Nat) (r : Request B) (x : Nat) : ℕ ×ₗ ℤ ×ₗ ℕ :=
  if x = req then key r else key (s.request x)

omit [DecidableEq T] in
/-- Slot `req` is filled in with `r`, and goes to its place in the queue. Of the other slots only a link changes. -/
theorem addRequest_inserted (hchain : Chain (fun x => (s.request x).next) (s.current m) q) (hnodup : q.Nodup)
    (hlen : q.length ≤ nrRequest) (hnew : req ∉ q) :
    ∃ s', (s.setRequest req fun _ => r).addRequest m req = some s' ∧
      Chain (fun x => (s'.request x).next) (s'.current m) (inserted (s.keys req r) req q) ∧
      (∀ x, key (s'.request x) = s.keys req r x) ∧
      ∀ x, (s'.request x).dev = if x = req then r.dev else (s.request x).dev := by
  -- the state in which the place is searched
  obtain ⟨s₁, hs₁⟩ : ∃ s₁, s₁ = ((s.setRequest req fun _ => r).setRequest req fun x => { x with next := none }).clearDirt
    (((s.setRequest req fun _ => r).setRequest req fun x => { x with next := none }).request req).bh := ⟨_, rfl⟩
  have hslot : ∀ x, s₁.request x = if x = req then { r with next := none } else s.request x := by
    intro x
    rw [hs₁, clearDirt_request]
    by_cases hx : x = req
    · simp [setRequest, hx]
    · simp [setRequest, hx]
  have hcurrent : s₁.current = s.current := by
    rw [hs₁, clearDirt_current]
    rfl
  have hkeys : (fun x => key (s₁.request x)) = s.keys req r := by
    funext x
    rw [hslot, keys]
    split <;> rfl
  have hchain₁ : Chain (fun x => (s₁.request x).next) (s.current m) q := by
    refine hchain.congr fun x hx => ?_
    have hne : x ≠ req := fun heq => hnew (heq ▸ hx)
    rw [hslot, if_neg hne]
  unfold addRequest
  dsimp only
  rw [← hs₁, hcurrent]
  cases q with
  | nil =>
    have hempty : s.current m = none := hchain
    rw [hempty]
    refine ⟨_, rfl, ⟨Function.update_self .., ?_⟩, fun x => congrFun hkeys x, fun x => ?_⟩
    · show (s₁.request req).next = none
      rw [hslot, if_pos rfl]
    · show (s₁.request x).dev = _
      rw [hslot]
      split <;> rfl
  | cons a l =>
    have hhead : s.current m = some a := hchain.1
    rw [hhead] at hchain₁ ⊢
    have hplace := @findPlace_behind B s₁.request req nrRequest a l hchain₁ hlen
    obtain ⟨l₁, p, l₂, heq, hfind, hbehind⟩ := hplace
    refine ⟨s₁.linkBehind req p, by simp only [hfind, Option.map_some], ?_, fun x => ?_, fun x => ?_⟩
    · rw [heq] at hchain₁ hnodup hnew
      have hinsert := hchain₁.insert hnodup hnew
      rw [linkBehind, next_setRequest, next_setRequest, inserted, ← hkeys, hbehind]
      have hstart : (s₁.setRequest req fun x => { x with next := (s₁.request p).next }).current m = some a := by
        show s₁.current m = some a
        rw [hcurrent, hhead]
      exact hstart ▸ hinsert
    · rw [(linkBehind_same p x).1]
      exact congrFun hkeys x
    · rw [(linkBehind_same p x).2, hslot]
      split <;> rfl

omit [DecidableEq T] in
/-- `add_request` finds a place in the queue, and the elevator keeps going one way. -/
theorem Elevator.insert (h : s.Elevator m q) (hreq : req < nrRequest) (hfree : (s.request req).dev < 0)
    (hdev : 0 ≤ r.dev) (hkey : ∀ x ∈ q, key (s.request x) ≠ key r) :
    ∃ s', (s.setRequest req fun _ => r).addRequest m req = some s' ∧
      s'.Elevator m (inserted (s.keys req r) req q) := by
  have hnew : req ∉ q := fun hmem => absurd (h.slot req hmem).2 (Int.not_le.mpr hfree)
  have hlen : q.length ≤ nrRequest := by
    have hsub : q ⊆ List.range nrRequest := fun x hx => List.mem_range.mpr (h.slot x hx).1
    simpa using (List.subperm_of_subset h.nodup hsub).length_le
  obtain ⟨s', hadd, hchain, hkeys, hdevs⟩ := addRequest_inserted (r := r) h.chain h.nodup hlen hnew
  have hold : ∀ x ∈ q, s.keys req r x = key (s.request x) := by
    intro x hx
    have hne : x ≠ req := fun heq => hnew (heq ▸ hx)
    exact if_neg hne
  have hperm := inserted_perm (s.keys req r) req q
  refine ⟨s', hadd, hchain, ?_, fun x hx => ?_, ?_⟩
  · exact hperm.nodup_iff.mpr (List.nodup_cons.mpr ⟨hnew, h.nodup⟩)
  · rw [hdevs]
    rcases List.mem_cons.mp (hperm.mem_iff.mp hx) with rfl | hx
    · rw [if_pos rfl]
      exact ⟨hreq, hdev⟩
    · have hne : x ≠ req := fun heq => hnew (heq ▸ hx)
      rw [if_neg hne]
      exact h.slot x hx
  · refine twoRuns_congr (inserted_runs (twoRuns_congr h.runs hold) fun x hx => ?_) fun x _ => hkeys x
    rw [hold x hx, keys, if_pos rfl]
    exact hkey x hx

omit [DecidableEq T] in
@[simp] theorem finish_request (uptodate : Bool) (o : Option B) : (s.finish uptodate o).request = s.request := by
  cases o <;> rfl

omit [DecidableEq T] in
/-- `end_request` takes the head off the queue. -/
theorem Elevator.remove (h : s.Elevator m q) {a : Nat} (hcurrent : s.current m = some a) (uptodate : Bool) :
    (s.endRequest m a uptodate).Elevator m q.tail := by
  have hchain := h.chain
  rw [hcurrent] at hchain
  obtain ⟨l, rfl, htail⟩ := hchain.of_some
  have hne : ∀ x ∈ l, x ≠ a := by
    rintro x hx rfl
    exact (List.nodup_cons.mp h.nodup).1 hx
  have hslot : ∀ x, (s.endRequest m a uptodate).request x =
      if x = a then { s.request a with dev := -1 } else s.request x := by
    intro x
    simp only [endRequest, setCurrent, setRequest, finish_request, Function.update_apply]
  refine ⟨?_, h.nodup.tail, fun x hx => ?_, twoRuns_congr h.runs.tail fun x hx => ?_⟩
  · rw [(endRequest_same s m a uptodate).1, Function.update_self]
    refine htail.congr fun x hx => ?_
    rw [hslot, if_neg (hne x hx)]
  · rw [hslot, if_neg (hne x hx)]
    exact h.slot x (List.mem_cons_of_mem a hx)
  · rw [hslot, if_neg (hne x hx)]

omit [DecidableEq T] in
theorem QueueStep.keeps_elevator (hstep : QueueStep m s s') (h : ∃ q, s.Elevator m q) : ∃ q, s'.Elevator m q := by
  obtain ⟨q, h⟩ := h
  cases hstep with
  | insert req r hreq hfree hdev hkey hadd =>
    obtain ⟨s'', hadd', h'⟩ := h.insert hreq hfree hdev (hkey q h.chain)
    rw [hadd] at hadd'
    cases hadd'
    exact ⟨_, h'⟩
  | remove uptodate hcurrent => exact ⟨_, h.remove hcurrent uptodate⟩

omit [DecidableEq T] in
/-- Whatever comes and goes, the queue is in two runs. A request that comes goes behind the head, and between requests
that stay in their order. -/
theorem elevator {s₀ : Dev T B} (h₀ : s₀.current m = none) (hrun : Relation.ReflTransGen (QueueStep m) s₀ s) :
    ∃ q, s.Elevator m q ∧ ∀ req r, req < nrRequest → (s.request req).dev < 0 → 0 ≤ r.dev →
      (∀ x ∈ q, key (s.request x) ≠ key r) →
      ∃ s' q', (s.setRequest req fun _ => r).addRequest m req = some s' ∧ s'.Elevator m q' ∧
        q'.Perm (req :: q) ∧ List.Sublist q q' ∧ ∀ a, q.head? = some a → q'.head? = some a := by
  have hstart : ∃ q, s₀.Elevator m q :=
    ⟨[], h₀, List.nodup_nil, fun _ hx => (by cases hx), Increasing.twoRuns List.Pairwise.nil⟩
  obtain ⟨q, h⟩ := invariant_of_run (I := fun s => ∃ q, s.Elevator m q) (fun _ _ hs hstep => hstep.keeps_elevator hs)
    hstart hrun
  refine ⟨q, h, fun req r hreq hfree hdev hkey => ?_⟩
  obtain ⟨s', hadd, h'⟩ := h.insert hreq hfree hdev hkey
  refine ⟨s', _, hadd, h', inserted_perm _ req q, inserted_sublist _ req q, fun a ha => ?_⟩
  cases q with
  | nil => cases ha
  | cons b l => exact ha

/-- Nothing is queued. -/
def idle : Dev Unit Unit where
  buf := fun _ => ⟨0x301, 0, false, false, true⟩
  request := fun _ => ⟨-1, .read, 0, 0, 0, none, none⟩
  current := fun _ => none
  requestFn := fun m => m == 3
  calls := fun _ => none
  cpu := none

/-- A read of block `sector / 2`. -/
def readOf (sector : Nat) : Request Unit := ⟨0x301, .read, 0, sector, 2, some (), none⟩

/-- What `add_request` leaves. -/
def queued (s : Dev Unit Unit) (req sector : Nat) : Dev Unit Unit :=
  ((s.setRequest req fun _ => readOf sector).addRequest 3 req).getD s

def three : Dev Unit Unit := ((idle.queued 0 100).queued 1 200).queued 2 50

def two : Dev Unit Unit := three.endRequest 3 0 true

/-- The chains of a queue that is known. -/
theorem of_chain {next : Nat → Option Nat} {o : Option Nat} {q l : List Nat} {P : Nat → Prop} (hl : Chain next o l)
    (hq : Chain next o q) (hP : ∀ x ∈ q, P x) : ∀ x ∈ l, P x := by
  rw [hl.unique hq]
  exact hP

/-- Sector 50 waits for the second run, the head is served, and sector 150 has to wait for the second run, too. -/
theorem elevator_three : ∃ q, (two.queued 0 150).Elevator 3 q ∧ q = [1, 2, 0] := by
  have h₁ : QueueStep 3 idle (idle.queued 0 100) :=
    .insert 0 (readOf 100) (by decide) (by decide) (by decide) (fun _ hl => of_chain (q := []) hl rfl (by simp)) rfl
  have h₂ : QueueStep 3 (idle.queued 0 100) ((idle.queued 0 100).queued 1 200) :=
    .insert 1 (readOf 200) (by decide) (by decide) (by decide)
      (fun _ hl => of_chain (q := [0]) hl ⟨rfl, rfl⟩ (by decide)) rfl
  have h₃ : QueueStep 3 ((idle.queued 0 100).queued 1 200) three :=
    .insert 2 (readOf 50) (by decide) (by decide) (by decide)
      (fun _ hl => of_chain (q := [0, 1]) hl ⟨rfl, rfl, rfl⟩ (by decide)) rfl
  have h₄ : QueueStep 3 three two := .remove true rfl
  have h₅ : QueueStep 3 two (two.queued 0 150) :=
    .insert 0 (readOf 150) (by decide) (by decide) (by decide)
      (fun _ hl => of_chain (q := [1, 2]) hl ⟨rfl, rfl, rfl⟩ (by decide)) rfl
  obtain ⟨q, h, -⟩ := elevator (m := 3) rfl (((((Relation.ReflTransGen.single h₁).tail h₂).tail h₃).tail h₄).tail h₅)
  exact ⟨q, h, h.chain.unique ⟨rfl, rfl, rfl, rfl⟩⟩

end Dev

end Linux011.Blk
