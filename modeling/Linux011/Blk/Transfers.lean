import Linux011.Blk.Hd
import Linux011.Lib.Run

/-!
# Transfers of the hard disk

However often a transfer fails and is taken up again, the request says what is left of it: `Progress` relates its
fields to the half that comes next, and `Serves` says that the controller is at this half.
-/

namespace Linux011.Blk

open Linux011.Lib

/-- The number of the sector that the registers name. -/
def Command.number (D : Disks) (c : Command) : Nat :=
  (c.cyl * (D.hdInfo c.drive).head + c.head) * (D.hdInfo c.drive).sect + (c.sect - 1)

/-- The registers name a sector of the drive. -/
structure Command.Valid (D : Disks) (c : Command) : Prop where
  sect : 1 ≤ c.sect ∧ c.sect ≤ (D.hdInfo c.drive).sect
  head : c.head < (D.hdInfo c.drive).head
  cyl : c.cyl < (D.hdInfo c.drive).cyl

/-- The partition lies inside a disk whose sectors the controller can name. -/
structure Disks.Sound (D : Disks) (dev : Nat) : Prop where
  drives : D.nrHd ≤ 2
  dev_lt : dev < 5 * D.nrHd
  head : 1 ≤ (D.hdInfo (dev / 5)).head ∧ (D.hdInfo (dev / 5)).head ≤ 16
  sect : 1 ≤ (D.hdInfo (dev / 5)).sect ∧ (D.hdInfo (dev / 5)).sect ≤ 255
  cyl : (D.hdInfo (dev / 5)).cyl < 65536
  inside : (D.hd dev).startSect + (D.hd dev).nrSects ≤
    (D.hdInfo (dev / 5)).cyl * (D.hdInfo (dev / 5)).head * (D.hdInfo (dev / 5)).sect

/-- The request is for a block inside its partition. -/
structure HdRequest.Inside (D : Disks) (r : HdRequest) : Prop where
  sound : D.Sound r.dev
  block : 2 * r.bh.bBlocknr + 2 ≤ (D.hd r.dev).nrSects

def winCmd : Cmd → WinCmd
  | .read => .read
  | .write => .write

/-- The transfer is of half `j` of the block, between its sector and its half of the buffer. -/
structure Half (D : Disks) (r : HdRequest) (j : Nat) (t : Transfer) : Prop where
  rw : t.rw = r.cmd ∧ t.command.cmd = winCmd r.cmd
  drive : t.command.drive = r.dev / 5
  valid : t.command.Valid D
  number : t.command.number D + t.k = (D.hd r.dev).startSect + 2 * r.bh.bBlocknr + j
  buffer : t.buffer = r.bh.bData + 512 * j

/-- `k` halves of the block are done. -/
structure Progress (D : Disks) (r : HdRequest) (k : Nat) : Prop where
  sector : r.sector = 2 * r.bh.bBlocknr + k
  nrSectors : r.nrSectors = 2 - k
  buffer : r.buffer = r.bh.bData + 512 * k
  only : ∀ t ∈ r.log, ∃ j < 2, Half D r j t
  good : ∀ j < k, ∃ t ∈ r.log, t.good = true ∧ Half D r j t
  errors : r.errors ≤ r.counted

/-- The controller is at half `k` of the request. -/
def Hd.Serves (D : Disks) (s : Hd) (r : HdRequest) (k : Nat) : Prop :=
  (s.doHd = some .readIntr → r.cmd = .read ∧ Half D r k ⟨.read, s.command, s.done, r.buffer, true⟩) ∧
    (s.doHd = some .writeIntr → r.cmd = .write ∧ Half D r k ⟨.write, s.command, s.done, r.buffer, true⟩)

/-- Both halves of the block were transferred, and nothing else. -/
structure Exact (D : Disks) (r : HdRequest) : Prop where
  only : ∀ t ∈ r.log, ∃ j < 2, Half D r j t
  both : ∀ j < 2, ∃ t ∈ r.log, t.good = true ∧ Half D r j t

/-- A request that has ended was transferred, or has failed often enough. -/
def Settled (D : Disks) (e : HdRequest × Bool) : Prop :=
  if e.2 then Exact D e.1 else 2 * e.1.bh.bBlocknr + 2 < (D.hd e.1.dev).nrSects → maxErrors ≤ e.1.counted

/-- The requests behind `CURRENT`. -/
def Waiting (D : Disks) (l : List HdRequest) : Prop := ∀ r ∈ l, r.Inside D → Progress D r 0

def AllSettled (D : Disks) (l : List (HdRequest × Bool)) : Prop := ∀ e ∈ l, e.1.Inside D → Settled D e

structure Hd.Inv (D : Disks) (s : Hd) : Prop where
  waiting : Waiting D s.queue.tail
  current : ∀ r rest, s.queue = r :: rest → r.Inside D →
    ∃ k < 2, Progress D r k ∧ (s.running = false → s.Serves D r k)
  ended : AllSettled D s.ended

variable {D : Disks} {r r' : HdRequest} {rest : List HdRequest} {s s' : Hd} {k : Nat}

/-! ## Addresses -/

/-- What the registers name. -/
theorem number_of_block (sect head block : Nat) :
    (block / sect / head * head + block / sect % head) * sect + (block % sect + 1 - 1) = block := by
  rw [Nat.mul_comm (block / sect / head), Nat.div_add_mod, Nat.add_sub_cancel, Nat.mul_comm, Nat.div_add_mod]

/-- There are fewer than 2^28 sectors. -/
theorem Disks.Sound.total (h : D.Sound r.dev) : (D.hd r.dev).startSect + (D.hd r.dev).nrSects ≤ 267386880 := by
  have hcyl := h.cyl
  have hhead := h.head.2
  have hsect := h.sect.2
  calc (D.hd r.dev).startSect + (D.hd r.dev).nrSects
      ≤ (D.hdInfo (r.dev / 5)).cyl * (D.hdInfo (r.dev / 5)).head * (D.hdInfo (r.dev / 5)).sect := h.inside
    _ ≤ 65536 * 16 * 255 := Nat.mul_le_mul (Nat.mul_le_mul hcyl.le hhead) hsect

/-- The registers name sector `block` of the drive, and nothing is cut off. -/
theorem address (h : D.Sound r.dev) {block nsect : Nat} {cmd : WinCmd}
    (hblock : block < (D.hd r.dev).startSect + (D.hd r.dev).nrSects) {g : HdInfo} (hg : g = D.hdInfo (r.dev / 5)) :
    r.dev / 5 ≤ 1 ∧ block / g.sect % g.head ≤ 15 ∧
      ∀ c : Command, c = ⟨r.dev / 5, nsect, (block % g.sect + 1) % 256, block / g.sect % g.head,
        block / g.sect / g.head % 65536, cmd⟩ → c.Valid D ∧ c.number D = block := by
  have hdev := h.dev_lt
  have hdrives := h.drives
  have hlt := Nat.lt_of_lt_of_le hblock h.inside
  obtain ⟨hhead, hhead'⟩ := h.head
  obtain ⟨hsect, hsect'⟩ := h.sect
  have hcyl := h.cyl
  rw [← hg] at hlt hhead hhead' hsect hsect' hcyl
  have hsec : block % g.sect < g.sect := Nat.mod_lt _ hsect
  have htrack : block / g.sect % g.head < g.head := Nat.mod_lt _ hhead
  have hcylinder : block / g.sect / g.head < g.cyl := by
    rw [Nat.div_lt_iff_lt_mul hhead, Nat.div_lt_iff_lt_mul hsect]
    exact hlt
  refine ⟨by omega, by omega, ?_⟩
  rintro c rfl
  have hsec256 : (block % g.sect + 1) % 256 = block % g.sect + 1 := Nat.mod_eq_of_lt (by omega)
  have hcyl65536 : block / g.sect / g.head % 65536 = block / g.sect / g.head := Nat.mod_eq_of_lt (by omega)
  refine ⟨⟨?_, ?_, ?_⟩, ?_⟩
  · rw [← hg, hsec256]
    exact ⟨Nat.le_add_left 1 _, hsec⟩
  · rw [← hg]
    exact htrack
  · rw [← hg, hcyl65536]
    exact hcylinder
  · unfold Command.number
    rw [← hg, hsec256, hcyl65536]
    exact number_of_block _ _ _

/-! ## Steps -/

theorem Half.congr {j : Nat} {t : Transfer} (h : Half D r j t) (hdev : r'.dev = r.dev) (hcmd : r'.cmd = r.cmd)
    (hbh : r'.bh = r.bh) : Half D r' j t := by
  refine ⟨?_, ?_, h.valid, ?_, ?_⟩
  · rw [hcmd]
    exact h.rw
  · rw [hdev]
    exact h.drive
  · rw [hdev, hbh]
    exact h.number
  · rw [hbh]
    exact h.buffer

theorem AllSettled.snoc {l : List (HdRequest × Bool)} {e : HdRequest × Bool} (h : AllSettled D l)
    (he : e.1.Inside D → Settled D e) : AllSettled D (l ++ [e]) := by
  intro e' he'
  rcases List.mem_append.mp he' with hl | hsingle
  · exact h e' hl
  · rw [List.mem_singleton.mp hsingle]
    exact he

/-- The next request becomes `CURRENT`, while the driver runs. -/
theorem Hd.Inv.next (hwait : Waiting D s.queue) (hended : AllSettled D s.ended) (hrunning : s.running = true) :
    s.Inv D := by
  refine ⟨fun r hr => hwait r (List.mem_of_mem_tail hr), fun r rest hqueue hr => ?_, hended⟩
  have hmem : r ∈ s.queue := by
    rw [hqueue]
    exact List.mem_cons_self
  refine ⟨0, Nat.zero_lt_two, hwait r hmem hr, fun hidle => ?_⟩
  rw [hrunning] at hidle
  cases hidle

/-- `CURRENT` stays, while the driver runs. -/
theorem Hd.Inv.stay (hqueue : s.queue = r :: rest) (hwait : Waiting D rest)
    (hr : r.Inside D → ∃ k < 2, Progress D r k) (hended : AllSettled D s.ended) (hrunning : s.running = true) :
    s.Inv D := by
  refine ⟨?_, fun r' rest' hqueue' hr' => ?_, hended⟩
  · rw [hqueue]
    exact hwait
  · rw [hqueue] at hqueue'
    obtain ⟨rfl, rfl⟩ := List.cons.inj hqueue'
    obtain ⟨k, hk, hprogress⟩ := hr hr'
    refine ⟨k, hk, hprogress, fun hidle => ?_⟩
    rw [hrunning] at hidle
    cases hidle

theorem Progress.fail (h : Progress D r k) :
    Progress D { r with errors := r.errors + 1, counted := r.counted + 1 } k :=
  ⟨h.sector, h.nrSectors, h.buffer,
    fun t ht => (h.only t ht).imp fun _ hj => ⟨hj.1, hj.2.congr rfl rfl rfl⟩,
    fun j hj => (h.good j hj).imp fun _ ht => ⟨ht.1, ht.2.1, ht.2.2.congr rfl rfl rfl⟩, Nat.succ_le_succ h.errors⟩

/-- A transfer of a half is recorded. -/
theorem Progress.note (h : Progress D r k) {j : Nat} (hj : j < 2) {t : Transfer} (ht : Half D r j t) :
    Progress D { r with log := r.log ++ [t] } k := by
  refine ⟨h.sector, h.nrSectors, h.buffer, fun t' ht' => ?_, fun j' hj' => ?_, h.errors⟩
  · rcases List.mem_append.mp ht' with hold | hnew
    · obtain ⟨i, hi, hhalf⟩ := h.only t' hold
      exact ⟨i, hi, hhalf.congr rfl rfl rfl⟩
    · rw [List.mem_singleton.mp hnew]
      exact ⟨j, hj, ht.congr rfl rfl rfl⟩
  · obtain ⟨t', ht', hgood, hhalf⟩ := h.good j' hj'
    exact ⟨t', List.mem_append_left _ ht', hgood, hhalf.congr rfl rfl rfl⟩

/-- `bad_rw_intr` counts an error, and ends the request when there are too many. -/
theorem badRwIntr_inv (hwait : Waiting D rest) (hr : r.Inside D → ∃ k < 2, Progress D r k)
    (hended : AllSettled D s.ended) : { s.badRwIntr D r rest with running := true }.Inv D := by
  unfold Hd.badRwIntr
  by_cases hmany : maxErrors ≤ r.errors + 1
  · have hsettled : AllSettled D (s.ended ++ [({ r with errors := r.errors + 1, counted := r.counted + 1 }, false)]) := by
      refine hended.snoc fun hin _ => ?_
      obtain ⟨k, -, hprogress⟩ := hr ⟨hin.sound, hin.block⟩
      exact Nat.le_trans hmany hprogress.fail.errors
    simp only [if_pos hmany]
    split
    · exact Hd.Inv.next hwait hsettled rfl
    · exact Hd.Inv.next hwait hsettled rfl
  · have hprogress : ({ r with errors := r.errors + 1, counted := r.counted + 1 } : HdRequest).Inside D →
        ∃ k < 2, Progress D { r with errors := r.errors + 1, counted := r.counted + 1 } k := by
      intro hin
      obtain ⟨k, hk, hprogress⟩ := hr ⟨hin.sound, hin.block⟩
      exact ⟨k, hk, hprogress.fail⟩
    simp only [if_neg hmany]
    split
    · exact Hd.Inv.stay rfl hwait hprogress hended rfl
    · exact Hd.Inv.stay rfl hwait hprogress hended rfl

theorem hdOut_ok {ready : Bool} {drive nsect sect head cyl : Nat} {cmd : WinCmd} {intr : Handler}
    (hok : s.hdOut ready drive nsect sect head cyl cmd intr = .ok s') :
    s' = { s with
      doHd := some intr
      command := ⟨drive, nsect % 256, sect % 256, head, cyl % 65536, cmd⟩
      done := 0
      pending := cmd != .write } := by
  unfold Hd.hdOut at hok
  split at hok
  · cases hok
  · split at hok
    · cases hok
    · cases hok
      rfl

/-- A command for what is left of the request begins with its next half. -/
theorem issued (hr : r.Inside D) (hk : k < 2) (hprogress : Progress D r k) {g : HdInfo} {c : Command}
    {block nsect : Nat} (hg : g = D.hdInfo (r.dev / 5)) (hblock : block = (r.sector + (D.hd r.dev).startSect) % 2 ^ 32)
    (hc : c = ⟨r.dev / 5, nsect, (block % g.sect + 1) % 256, block / g.sect % g.head,
      block / g.sect / g.head % 65536, winCmd r.cmd⟩) (good : Bool) : Half D r k ⟨r.cmd, c, 0, r.buffer, good⟩ := by
  have hinside := hr.block
  have hlt : (D.hd r.dev).startSect + 2 * r.bh.bBlocknr + k < (D.hd r.dev).startSect + (D.hd r.dev).nrSects := by
    omega
  have hsmall := hr.sound.total
  have hnumber : block = (D.hd r.dev).startSect + 2 * r.bh.bBlocknr + k := by
    rw [hblock, hprogress.sector, Nat.mod_eq_of_lt (by omega)]
    omega
  rw [← hnumber] at hlt
  obtain ⟨-, -, haddress⟩ := @address D r hr.sound block nsect (winCmd r.cmd) hlt g hg
  obtain ⟨hvalid, hnum⟩ := haddress c hc
  refine ⟨⟨rfl, by rw [hc]⟩, by rw [hc], hvalid, ?_, hprogress.buffer⟩
  show c.number D + 0 = _
  rw [hnum, hnumber]
  rfl

/-- A request inside its partition is rejected only if its first half is done and its block is the last one. -/
theorem rejected (hr : r.Inside D) (hk : k < 2) (hprogress : Progress D r k)
    (hreject : r.OutOfRange D) : k = 1 ∧ 2 * r.bh.bBlocknr + 2 = (D.hd r.dev).nrSects := by
  have hinside := hr.block
  have hdev := hr.sound.dev_lt
  unfold HdRequest.OutOfRange at hreject
  rw [hprogress.sector] at hreject
  have hmod := Nat.mod_le (2 * r.bh.bBlocknr + k + 2) (2 ^ 32)
  omega

/-- `CURRENT` stays, and the driver waits for an interrupt. -/
theorem Hd.Inv.wait (hqueue : s.queue = r :: rest) (hwait : Waiting D rest)
    (hr : r.Inside D → ∃ k < 2, Progress D r k ∧ s.Serves D r k) (hended : AllSettled D s.ended) : s.Inv D := by
  refine ⟨?_, fun r' rest' hqueue' hr' => ?_, hended⟩
  · rw [hqueue]
    exact hwait
  · rw [hqueue] at hqueue'
    obtain ⟨rfl, rfl⟩ := List.cons.inj hqueue'
    obtain ⟨k, hk, hprogress, hserves⟩ := hr hr'
    exact ⟨k, hk, hprogress, fun _ => hserves⟩

theorem map_ok {α β : Type} {f : α → β} {x : Except String α} {b : β} (h : x.map f = .ok b) :
    ∃ a, x = .ok a ∧ f a = b := by
  cases x with
  | error e => cases h
  | ok a =>
    cases h
    exact ⟨a, rfl, rfl⟩

theorem writeOut_inv (hcmd : r.cmd = .write) (hwait : Waiting D rest) (hr : r.Inside D → ∃ k < 2, Progress D r k)
    (hended : AllSettled D s.ended) (hdone : s.done = 0) (hdoHd : s.doHd = some .writeIntr)
    (hhalf : ∀ k, r.Inside D → k < 2 → Progress D r k → ∀ good, Half D r k ⟨.write, s.command, 0, r.buffer, good⟩)
    {drq : Bool} : (s.writeOut D drq r rest).Inv D := by
  cases drq with
  | false => exact badRwIntr_inv hwait hr hended
  | true =>
    refine Hd.Inv.wait rfl hwait (fun hin => ?_) hended
    have hin : r.Inside D := ⟨hin.sound, hin.block⟩
    obtain ⟨k, hk, hprogress⟩ := hr hin
    have hhalf := hhalf k hin hk hprogress
    refine ⟨k, hk, hprogress.note hk (hhalf false), fun heq => ?_, fun _ => ⟨hcmd, ?_⟩⟩
    · rw [show s.doHd = some .readIntr from heq] at hdoHd
      cases hdoHd
    · show Half D _ k ⟨.write, s.command, s.done, r.buffer, true⟩
      rw [hdone]
      exact (hhalf true).congr rfl rfl rfl

theorem turn_inv (h : s.Inv D) (hrunning : s.running = true) {ready drq : Bool}
    (hok : s.turn D ready drq = .ok s') : s'.Inv D := by
  unfold Hd.turn at hok
  split at hok
  · next hqueue =>
    cases hok
    refine ⟨h.waiting, fun r rest hcons => ?_, h.ended⟩
    rw [show s.queue = r :: rest from hcons] at hqueue
    cases hqueue
  · next r rest hqueue =>
    have hwait : Waiting D rest := by
      have hw := h.waiting
      rw [hqueue] at hw
      exact hw
    have hcur : r.Inside D → ∃ k < 2, Progress D r k := by
      intro hr
      obtain ⟨k, hk, hprogress, -⟩ := h.current r rest hqueue hr
      exact ⟨k, hk, hprogress⟩
    simp only at hok
    split at hok
    · -- out of range, as the driver sees it
      next hreject =>
      cases hok
      refine Hd.Inv.next hwait (h.ended.snoc fun hr => ?_) hrunning
      obtain ⟨k, hk, hprogress⟩ := hcur hr
      obtain ⟨-, hlast⟩ := rejected hr hk hprogress hreject
      exact fun hlt => absurd hlast (Nat.ne_of_lt hlt)
    · split at hok
      · cases hdOut_ok hok
        refine Hd.Inv.wait hqueue hwait (fun hr => ?_) h.ended
        obtain ⟨k, hk, hprogress⟩ := hcur hr
        exact ⟨k, hk, hprogress, fun heq => (by cases heq), fun heq => (by cases heq)⟩
      · split at hok
        · cases hdOut_ok hok
          refine Hd.Inv.wait hqueue hwait (fun hr => ?_) h.ended
          obtain ⟨k, hk, hprogress⟩ := hcur hr
          exact ⟨k, hk, hprogress, fun heq => (by cases heq), fun heq => (by cases heq)⟩
        · split at hok
          · next hcmd =>
            obtain ⟨s₁, hout, rfl⟩ := map_ok hok
            have hs₁ := hdOut_ok hout
            refine writeOut_inv hcmd hwait hcur (by rw [hs₁]; exact h.ended) (by rw [hs₁]) (by rw [hs₁]) ?_
            intro k hr hk hprogress good
            have hhalf := @issued D r k hr hk hprogress _ s₁.command _ (r.nrSectors % 256) rfl rfl
              (by rw [hs₁, hcmd]; rfl) good
            rwa [hcmd] at hhalf
          · next hcmd =>
            cases hdOut_ok hok
            refine Hd.Inv.wait hqueue hwait (fun hr => ?_) h.ended
            obtain ⟨k, hk, hprogress⟩ := hcur hr
            have hhalf := @issued D r k hr hk hprogress _ _ _ (r.nrSectors % 256) rfl rfl (by rw [hcmd]) true
            exact ⟨k, hk, hprogress, fun _ => ⟨hcmd, hcmd ▸ hhalf⟩, fun heq => (by cases heq)⟩

/-! ## Interrupts -/

/-- The next sector of a command goes to the next half. -/
theorem Half.succ {j d buffer : Nat} {rw : Cmd} {c : Command} {good : Bool} (h : Half D r j ⟨rw, c, d, buffer, good⟩)
    (good' : Bool) : Half D r (j + 1) ⟨rw, c, d + 1, buffer + 512, good'⟩ := by
  refine ⟨h.rw, h.drive, h.valid, ?_, ?_⟩
  · have hnumber : c.number D + d = (D.hd r.dev).startSect + 2 * r.bh.bBlocknr + j := h.number
    show c.number D + (d + 1) = _
    omega
  · have hbuffer : buffer = r.bh.bData + 512 * j := h.buffer
    show buffer + 512 = _
    omega

section

variable {t : Transfer} (hk : k < 2) (hprogress : Progress D r k) (ht : Half D r k t)
  (hgood : t.good = true)

include hk hprogress ht hgood

/-- The record after a good transfer of half `k`. -/
theorem log_transferred : (∀ t' ∈ r.log ++ [t], ∃ j < 2, Half D r j t') ∧
    ∀ j < k + 1, ∃ t' ∈ r.log ++ [t], t'.good = true ∧ Half D r j t' := by
  have hnote := hprogress.note hk ht
  refine ⟨fun t' ht' => ?_, fun j hj => ?_⟩
  · obtain ⟨j, hj, hhalf⟩ := hnote.only t' ht'
    exact ⟨j, hj, hhalf.congr rfl rfl rfl⟩
  · rcases Nat.lt_succ_iff_lt_or_eq.mp hj with hlt | rfl
    · obtain ⟨t', ht', hgood', hhalf⟩ := hnote.good j hlt
      exact ⟨t', ht', hgood', hhalf.congr rfl rfl rfl⟩
    · exact ⟨t, List.mem_append_right _ List.mem_cons_self, hgood, ht⟩

/-- The first half is done. -/
theorem transferred_more (hmore : (Hd.transferred r t).nrSectors ≠ 0) :
    k = 0 ∧ Progress D (Hd.advance (Hd.transferred r t)) 1 := by
  have hleft : r.nrSectors - 1 ≠ 0 := hmore
  rw [hprogress.nrSectors] at hleft
  have hzero : k = 0 := by omega
  obtain ⟨honly, hboth⟩ := log_transferred hk hprogress ht hgood
  rw [hzero] at hprogress hboth
  have herrors := hprogress.errors
  refine ⟨hzero, ?_, ?_, ?_, fun t' ht' => ?_, fun j hj => ?_, herrors⟩
  · show r.sector + 1 = _
    rw [hprogress.sector]
    rfl
  · show r.nrSectors - 1 = _
    rw [hprogress.nrSectors]
  · show r.buffer + 512 = _
    rw [hprogress.buffer]
    rfl
  · obtain ⟨j, hj, hhalf⟩ := honly t' ht'
    exact ⟨j, hj, hhalf.congr rfl rfl rfl⟩
  · obtain ⟨t', ht', hgood', hhalf⟩ := hboth j hj
    exact ⟨t', ht', hgood', hhalf.congr rfl rfl rfl⟩

/-- Both halves are done. -/
theorem transferred_last (hlast : (Hd.transferred r t).nrSectors = 0) : Exact D (Hd.transferred r t) := by
  have hleft : r.nrSectors - 1 = 0 := hlast
  rw [hprogress.nrSectors] at hleft
  have hone : k = 1 := by omega
  obtain ⟨honly, hboth⟩ := log_transferred hk hprogress ht hgood
  rw [hone] at hboth
  refine ⟨fun t' ht' => ?_, fun j hj => ?_⟩
  · obtain ⟨j, hj, hhalf⟩ := honly t' ht'
    exact ⟨j, hj, hhalf.congr rfl rfl rfl⟩
  · obtain ⟨t', ht', hgood', hhalf⟩ := hboth j hj
    exact ⟨t', ht', hgood', hhalf.congr rfl rfl rfl⟩

end

/-- What is known of `CURRENT` when an interrupt comes. -/
structure Serving (D : Disks) (s : Hd) (r : HdRequest) (rest : List HdRequest) (rw : Cmd) : Prop where
  waiting : Waiting D rest
  ended : AllSettled D s.ended
  current : r.Inside D → ∃ k < 2, Progress D r k ∧ r.cmd = rw ∧ Half D r k ⟨rw, s.command, s.done, r.buffer, true⟩

theorem Serving.progress {rw : Cmd} (h : Serving D s r rest rw) (hr : r.Inside D) : ∃ k < 2, Progress D r k := by
  obtain ⟨k, hk, hprogress, -⟩ := h.current hr
  exact ⟨k, hk, hprogress⟩

theorem readIntr_inv (hqueue : s.queue = r :: rest) (h : Serving D s r rest .read) {bad : Bool}
    (hok : s.readIntr D bad = .ok s') : s'.Inv D := by
  unfold Hd.readIntr at hok
  rw [hqueue] at hok
  simp only at hok
  split at hok
  · cases hok
    exact badRwIntr_inv h.waiting h.progress h.ended
  · split at hok
    · next hmore =>
      cases hok
      refine Hd.Inv.wait rfl h.waiting (fun hin => ?_) h.ended
      have hr : r.Inside D := ⟨hin.sound, hin.block⟩
      obtain ⟨k, hk, hprogress, hcmd, hhalf⟩ := h.current hr
      obtain ⟨rfl, hnext⟩ := transferred_more hk hprogress hhalf rfl hmore
      refine ⟨1, Nat.one_lt_two, ⟨hnext.sector, hnext.nrSectors, hnext.buffer, fun t ht => ?_, fun j hj => ?_,
        Nat.zero_le _⟩, fun _ => ⟨hcmd, (hhalf.succ true).congr rfl rfl rfl⟩, fun heq => (by cases heq)⟩
      · obtain ⟨j, hj, hhalf⟩ := hnext.only t ht
        exact ⟨j, hj, hhalf.congr rfl rfl rfl⟩
      · obtain ⟨t, ht, hgood, hhalf⟩ := hnext.good j hj
        exact ⟨t, ht, hgood, hhalf.congr rfl rfl rfl⟩
    · next hlast =>
      cases hok
      refine Hd.Inv.next h.waiting (h.ended.snoc fun hin => ?_) rfl
      have hr : r.Inside D := ⟨hin.sound, hin.block⟩
      obtain ⟨k, hk, hprogress, -, hhalf⟩ := h.current hr
      have hexact := transferred_last hk hprogress hhalf rfl (not_not.mp hlast)
      exact ⟨fun t ht => (hexact.only t ht).imp fun _ hj => ⟨hj.1, hj.2.congr rfl rfl rfl⟩,
        fun j hj => (hexact.both j hj).imp fun _ ht => ⟨ht.1, ht.2.1, ht.2.2.congr rfl rfl rfl⟩⟩

theorem writeIntr_inv (hqueue : s.queue = r :: rest) (h : Serving D s r rest .write) {bad : Bool}
    (hok : s.writeIntr D bad = .ok s') : s'.Inv D := by
  unfold Hd.writeIntr at hok
  rw [hqueue] at hok
  simp only at hok
  split at hok
  · cases hok
    exact badRwIntr_inv h.waiting h.progress h.ended
  · split at hok
    · next hmore =>
      cases hok
      refine Hd.Inv.wait rfl h.waiting (fun hin => ?_) h.ended
      have hr : r.Inside D := ⟨hin.sound, hin.block⟩
      obtain ⟨k, hk, hprogress, hcmd, hhalf⟩ := h.current hr
      obtain ⟨rfl, hnext⟩ := transferred_more hk hprogress hhalf rfl hmore
      have hhalf : ∀ good, Half D (Hd.advance (Hd.transferred r ⟨.write, s.command, s.done, r.buffer, true⟩)) 1
          ⟨.write, s.command, s.done + 1, r.buffer + 512, good⟩ := fun good => (hhalf.succ good).congr rfl rfl rfl
      exact ⟨1, Nat.one_lt_two, hnext.note Nat.one_lt_two (hhalf false), fun heq => (by cases heq),
        fun _ => ⟨hcmd, (hhalf true).congr rfl rfl rfl⟩⟩
    · next hlast =>
      cases hok
      refine Hd.Inv.next h.waiting (h.ended.snoc fun hin => ?_) rfl
      have hr : r.Inside D := ⟨hin.sound, hin.block⟩
      obtain ⟨k, hk, hprogress, -, hhalf⟩ := h.current hr
      exact transferred_last hk hprogress hhalf rfl (not_not.mp hlast)

theorem recalIntr_inv (hqueue : s.queue = r :: rest) (hwait : Waiting D rest)
    (hr : r.Inside D → ∃ k < 2, Progress D r k) (hended : AllSettled D s.ended) {bad : Bool}
    (hok : s.recalIntr D bad = .ok s') : s'.Inv D := by
  unfold Hd.recalIntr at hok
  rw [hqueue] at hok
  split at hok
  · cases hok
    exact badRwIntr_inv hwait hr hended
  · cases hok
    exact Hd.Inv.stay rfl hwait hr hended rfl

theorem interrupt_inv (h : s.Inv D) (hidle : s.running = false) {bad : Bool}
    (hok : s.interrupt D bad = .ok s') : s'.Inv D := by
  cases hqueue : s.queue with
  | nil =>
    -- Without a request only `recal_intr` returns, and a handler that is missing.
    have hempty : s'.queue = [] ∧ s'.ended = s.ended := by
      unfold Hd.interrupt at hok
      cases hdo : s.doHd with
      | none =>
        rw [hdo] at hok
        cases hok
        exact ⟨hqueue, rfl⟩
      | some handler =>
        rw [hdo] at hok
        cases handler with
        | readIntr =>
          simp only [Hd.readIntr, hqueue] at hok
          cases hok
        | writeIntr =>
          simp only [Hd.writeIntr, hqueue] at hok
          cases hok
        | recalIntr =>
          simp only [Hd.recalIntr, hqueue] at hok
          split at hok
          · cases hok
          · cases hok
            exact ⟨rfl, rfl⟩
    refine ⟨?_, fun r rest hcons => ?_, ?_⟩
    · rw [hempty.1]
      exact fun r hr => (by cases hr)
    · rw [hempty.1] at hcons
      cases hcons
    · rw [hempty.2]
      exact h.ended
  | cons r rest =>
    have hwait : Waiting D rest := by
      have hw := h.waiting
      rw [hqueue] at hw
      exact hw
    have hcur : r.Inside D → ∃ k < 2, Progress D r k := by
      intro hr
      obtain ⟨k, hk, hprogress, -⟩ := h.current r rest hqueue hr
      exact ⟨k, hk, hprogress⟩
    unfold Hd.interrupt at hok
    cases hdo : s.doHd with
    | none =>
      rw [hdo] at hok
      cases hok
      refine Hd.Inv.wait hqueue hwait (fun hr => ?_) h.ended
      obtain ⟨k, hk, hprogress⟩ := hcur hr
      exact ⟨k, hk, hprogress, fun heq => (by cases heq), fun heq => (by cases heq)⟩
    | some handler =>
      rw [hdo] at hok
      cases handler with
      | readIntr =>
        refine @readIntr_inv D r rest { s with doHd := none, pending := false } s' hqueue ⟨hwait, h.ended, fun hr => ?_⟩
          bad hok
        obtain ⟨k, hk, hprogress, hserves⟩ := h.current r rest hqueue hr
        exact ⟨k, hk, hprogress, (hserves hidle).1 hdo⟩
      | writeIntr =>
        refine @writeIntr_inv D r rest { s with doHd := none, pending := false } s' hqueue ⟨hwait, h.ended, fun hr => ?_⟩
          bad hok
        obtain ⟨k, hk, hprogress, hserves⟩ := h.current r rest hqueue hr
        exact ⟨k, hk, hprogress, (hserves hidle).2 hdo⟩
      | recalIntr =>
        exact @recalIntr_inv D r rest { s with doHd := none, pending := false } s' hqueue hwait hcur h.ended bad hok

/-- A request that comes has made no progress. -/
theorem HdRequest.Fresh.progress (h : r.Fresh) (hr : r.Inside D) : Progress D r 0 := by
  obtain ⟨herrors, hsector, hnr, hbuffer, hlog, -⟩ := h
  have hblock := hr.block
  have htotal := hr.sound.total
  refine ⟨?_, hnr, hbuffer, fun t ht => ?_, fun j hj => absurd hj (Nat.not_lt_zero j), ?_⟩
  · rw [hsector, Nat.mod_eq_of_lt (by omega)]
    omega
  · rw [hlog] at ht
    cases ht
  · rw [herrors]
    exact Nat.zero_le _

theorem arrive_inv {l₁ l₂ : List HdRequest} (h : s.Inv D) (hidle : s.running = false) (hfresh : r.Fresh)
    (hqueue : s.queue.tail = l₁ ++ l₂) :
    { s with queue := s.queue.take 1 ++ (l₁ ++ r :: l₂), running := s.queue.isEmpty }.Inv D := by
  cases hs : s.queue with
  | nil =>
    rw [hs] at hqueue
    obtain ⟨rfl, rfl⟩ := List.append_eq_nil_iff.mp hqueue.symm
    refine Hd.Inv.next (fun r' hr' hin => ?_) h.ended rfl
    obtain rfl := List.mem_singleton.mp hr'
    exact hfresh.progress hin
  | cons r₀ rest =>
    rw [hs] at hqueue
    have hwait := h.waiting
    rw [hs] at hwait
    rw [show rest = l₁ ++ l₂ from hqueue] at hwait
    refine ⟨fun r' hr' hin => ?_, fun r' rest' hcons hin => ?_, h.ended⟩
    · have hr' : r' ∈ l₁ ++ r :: l₂ := hr'
      rcases List.mem_append.mp hr' with hleft | hright
      · exact hwait r' (List.mem_append_left _ hleft) hin
      · rcases List.mem_cons.mp hright with rfl | hright
        · exact hfresh.progress hin
        · exact hwait r' (List.mem_append_right _ hright) hin
    · obtain ⟨rfl, -⟩ := List.cons.inj hcons
      obtain ⟨k, hk, hprogress, hserves⟩ := h.current r₀ rest hs hin
      exact ⟨k, hk, hprogress, fun _ => hserves hidle⟩

/-! ## Runs -/

theorem HdStep.inv (hstep : HdStep D s s') (h : s.Inv D) : s'.Inv D := by
  cases hstep with
  | arrive hidle hfresh hqueue => exact arrive_inv h hidle hfresh hqueue
  | turn ready drq hrunning hok => exact turn_inv h hrunning hok
  | interrupt bad hidle _ hok => exact interrupt_inv h hidle hok

theorem start_inv (D : Disks) : Hd.start.Inv D :=
  ⟨fun _ hr => (by cases hr), fun _ _ hcons => (by cases hcons), fun _ he => (by cases he)⟩

theorem inv_of_run (hrun : Relation.ReflTransGen (HdStep D) Hd.start s) : s.Inv D :=
  invariant_of_run (I := fun s => Hd.Inv D s) (fun _ _ hs hstep => hstep.inv hs) (start_inv D) hrun

/-- A disk with four heads, and a partition of a hundred sectors behind the first track. -/
def smallDisk : Disks := ⟨fun _ => ⟨4, 17, 100⟩, 1, fun _ => ⟨17, 100⟩, 0⟩

theorem smallDisk_sound : smallDisk.Sound 1 := by
  constructor <;> decide

/-- A read of block `b` of partition `dev` into the buffer at 4096. -/
def readRequest (dev b : Nat) : HdRequest := ⟨dev, .read, 0, b * 2 % 2 ^ 32, 2, 4096, ⟨b, 4096⟩, [], 0⟩

/-- In no run does the request fail without `MAX_ERRORS` errors, and it is never out of range. -/
def OftenEnough (D : Disks) (dev b : Nat) : Prop :=
  ∀ s, Relation.ReflTransGen (HdStep D) Hd.start s →
    (∀ r, (r, false) ∈ s.ended → r.dev = dev → r.bh.bBlocknr = b → maxErrors ≤ r.counted) ∧
      ∀ r rest, s.queue = r :: rest → r.dev = dev → r.bh.bBlocknr = b → ¬ r.OutOfRange D

/-- The driver begins to read. -/
theorem turn_read (hqueue : s.queue = r :: rest) (hin : ¬ r.OutOfRange D) (hreset : s.reset = false)
    (hrecal : s.recalibrate = false) (hcmd : r.cmd = .read) (hdrive : r.dev / 5 ≤ 1)
    (hhead : (r.sector + (D.hd r.dev).startSect) % 2 ^ 32 / (D.hdInfo (r.dev / 5)).sect %
      (D.hdInfo (r.dev / 5)).head ≤ 15) :
    ∃ c : Command, c.nsect = r.nrSectors % 256 ∧ s.turn D true true = .ok { s with
      running := false, doHd := some .readIntr, command := c, done := 0, pending := true } := by
  unfold Hd.turn
  rw [hqueue]
  simp only [if_neg hin, hreset, hrecal, hcmd, Bool.false_eq_true, if_false, Hd.hdOut]
  rw [if_neg (by omega)]
  exact ⟨_, rfl, rfl⟩

theorem turn_reject {ready drq : Bool} (hqueue : s.queue = r :: rest) (hreject : r.OutOfRange D) :
    s.turn D ready drq = .ok (s.endRequest r rest false) := by
  unfold Hd.turn
  rw [hqueue]
  exact if_pos hreject

/-- The first sector of the last block is read, the second is not, and the request is given up. -/
theorem last_block_given_up {dev b : Nat} (hsound : D.Sound dev) (hlast : 2 * b + 2 = (D.hd dev).nrSects) :
    ∃ s r, Relation.ReflTransGen (HdStep D) Hd.start s ∧ (r, false) ∈ s.ended ∧ r.dev = dev ∧ r.bh.bBlocknr = b ∧
      r.counted = 1 := by
  have hr : (readRequest dev b).Inside D := ⟨hsound, hlast.le⟩
  have hfresh : (readRequest dev b).Fresh := ⟨rfl, rfl, rfl, rfl, rfl, rfl⟩
  have hprogress := hfresh.progress hr
  have harrive : HdStep D Hd.start { Hd.start with queue := [readRequest dev b], running := true } :=
    @HdStep.arrive D Hd.start (readRequest dev b) [] [] rfl hfresh rfl
  have hin : ¬ (readRequest dev b).OutOfRange D := fun hreject => by
    obtain ⟨hone, -⟩ := rejected hr Nat.zero_lt_two hprogress hreject
    cases hone
  have htotal : (D.hd dev).startSect + (D.hd dev).nrSects ≤ 267386880 := hr.sound.total
  have hsector : b * 2 % 2 ^ 32 = b * 2 := Nat.mod_eq_of_lt (by omega)
  obtain ⟨hdrive, hhead, -⟩ := @address D (readRequest dev b) hsound
    ((b * 2 % 2 ^ 32 + (D.hd dev).startSect) % 2 ^ 32) 0 .read (by
      show _ < (D.hd dev).startSect + (D.hd dev).nrSects
      rw [hsector, Nat.mod_eq_of_lt (by omega)]
      omega) _ rfl
  obtain ⟨c, hnsect, hturn⟩ := turn_read (s := { Hd.start with queue := [readRequest dev b], running := true })
    rfl hin rfl rfl rfl hdrive hhead
  have hpending : decide (0 + 1 < c.nsect) = true := by
    rw [hnsect]
    rfl
  -- the first sector, an error, and the check of what is left
  have hrun := (((Relation.ReflTransGen.single harrive).tail (HdStep.turn true true rfl hturn)).tail
    (HdStep.interrupt false rfl rfl rfl)).tail (HdStep.interrupt true rfl hpending rfl)
  have hreject : HdRequest.OutOfRange D { Hd.advance (Hd.transferred (readRequest dev b) ⟨.read, c, 0, 4096, true⟩) with
      errors := 0 + 1, counted := 0 + 1 } := by
    right
    show (D.hd dev).nrSects < (b * 2 % 2 ^ 32 + 1 + 2) % 2 ^ 32
    rw [hsector, Nat.mod_eq_of_lt (by omega)]
    omega
  refine ⟨_, _, hrun.tail (HdStep.turn true true rfl (turn_reject rfl hreject)),
    List.mem_append_right _ List.mem_cons_self, ?_, ?_, ?_⟩
  · rfl
  · rfl
  · rfl

/-- Unless its block is the last one of the partition, a request is given up only after `MAX_ERRORS` errors. -/
theorem given_up_after_errors {dev b : Nat} (hsound : D.Sound dev) (hinside : 2 * b + 2 ≤ (D.hd dev).nrSects) :
    OftenEnough D dev b ↔ 2 * b + 2 < (D.hd dev).nrSects := by
  constructor
  · intro h
    rcases Nat.lt_or_eq_of_le hinside with hlt | hlast
    · exact hlt
    · obtain ⟨s, r, hrun, hended, hdev, hblock, hcounted⟩ := last_block_given_up hsound hlast
      have hmany := (h s hrun).1 r hended hdev hblock
      rw [hcounted] at hmany
      exact absurd hmany (by decide)
  · intro hlt s hrun
    have hinv := inv_of_run hrun
    refine ⟨fun r hended hdev hblock => ?_, fun r rest hqueue hdev hblock hreject => ?_⟩
    · subst hdev hblock
      exact hinv.ended (r, false) hended ⟨hsound, hinside⟩ hlt
    · subst hdev hblock
      obtain ⟨k, hk, hprogress, -⟩ := hinv.current r rest hqueue ⟨hsound, hinside⟩
      obtain ⟨-, hlast⟩ := rejected ⟨hsound, hinside⟩ hk hprogress hreject
      exact absurd hlast (Nat.ne_of_lt hlt)

theorem given_up_after_errors_small : OftenEnough smallDisk 1 48 ↔ 2 * 48 + 2 < (smallDisk.hd 1).nrSects :=
  given_up_after_errors smallDisk_sound (by decide)

/-- Block 49 of a partition of a hundred sectors: its first sector is read, its second one fails once. -/
theorem last_block_one_error : ¬ OftenEnough smallDisk 1 49 := by
  intro h
  obtain ⟨s, r, hrun, hended, hdev, hblock, hcounted⟩ := @last_block_given_up smallDisk 1 49 smallDisk_sound rfl
  have hmany := (h s hrun).1 r hended hdev hblock
  rw [hcounted] at hmany
  exact absurd hmany (by decide)

end Linux011.Blk
