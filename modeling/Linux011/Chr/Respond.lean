import Linux011.Chr.Console
import Linux011.Lib.Ring

/-!
# The answer of the terminal

The queues of `tty.h`, `respond`, and `con_write` with its queues. `ESC Z` is answered by characters in the read
queue, as if they had been typed.

`copy_to_cooked` is declared in `tty.h`, and its body is not among the sources. It is a parameter here, of the console
too, because what it echoes goes to `con_write` again. What `respond` makes of the read queue is what `copy_to_cooked`
finds there.
-/

namespace Linux011.Chr

/-- `TTY_BUF_SIZE` -/
def ttyBufSize : Nat := 1024

/-- `struct tty_queue`; the masks keep both ends below `TTY_BUF_SIZE`. -/
abbrev TtyQueue := Lib.Ring UInt8 ttyBufSize

namespace TtyQueue

/-- `INC` -/
def inc (a : Nat) : Nat := (a + 1) &&& (ttyBufSize - 1)

theorem inc_eq (a : Nat) : inc a = (a + 1) % ttyBufSize := Nat.and_two_pow_sub_one_eq_mod (a + 1) 10

theorem inc_lt (a : Nat) : inc a < ttyBufSize := by
  rw [inc_eq]
  exact Nat.mod_lt _ (by decide)

/-- `LEFT` -/
def left (q : TtyQueue) : Nat := sub32 (sub32 q.tail q.head) 1 &&& (ttyBufSize - 1)

/-- `CHARS` -/
def chars (q : TtyQueue) : Nat := sub32 q.head q.tail &&& (ttyBufSize - 1)

/-- `PUTCH` -/
def putch (q : TtyQueue) (c : UInt8) : TtyQueue :=
  { q with cell := Function.update q.cell q.head c, head := inc q.head, head_lt := inc_lt q.head }

/-- `GETCH`, with the character. -/
def getch (q : TtyQueue) : UInt8 × TtyQueue :=
  (q.cell q.tail, { q with tail := inc q.tail, tail_lt := inc_lt q.tail })

end TtyQueue

/-- `struct tty_struct`; `eraseChar` is `ERASE_CHAR`, of `termios`. -/
structure Tty where
  eraseChar : Nat
  readQ : TtyQueue
  writeQ : TtyQueue
  secondary : TtyQueue

/-- `RESPONSE` -/
def response : List UInt8 := [27, 91, 63, 49, 59, 50, 99]

section

variable (copyToCooked : Console × Tty → Console × Tty)

def respond (p : Console × Tty) : Console × Tty :=
  copyToCooked (p.1, { p.2 with readQ := response.foldl TtyQueue.putch p.2.readQ })

/-- One round of the loop of `con_write`, behind `GETCH`. -/
def conWriteChar (p : Console × Tty) (c : UInt8) : Console × Tty :=
  if p.1.state = 1 ∧ c.toNat = 'Z'.toNat then respond copyToCooked ({ p.1 with state := 0 }, p.2)
  else (p.1.putc p.2.eraseChar c, p.2)

/-- `while (nr--)` -/
def conWriteLoop : (nr : Nat) → Console × Tty → Console × Tty
  | 0, p => p
  | nr + 1, (s, tty) =>
    let r := tty.writeQ.getch
    conWriteLoop nr (conWriteChar copyToCooked (s, { tty with writeQ := r.2 }) r.1)

/-- `con_write` -/
def conWrite (p : Console × Tty) : Console × Tty := conWriteLoop copyToCooked p.2.writeQ.chars p

end

/-! ## The queues as rings -/

namespace TtyQueue

variable (q : TtyQueue)

theorem putch_eq (c : UInt8) : q.putch c = q.put c := by
  unfold putch Lib.Ring.put
  simp [inc_eq]

theorem getch_eq : q.getch = (q.cell q.tail, q.drop 1) := by
  unfold getch Lib.Ring.drop
  simp [inc_eq]

theorem chars_eq : q.chars = q.used := by
  have hhead : q.head < 1024 := q.head_lt
  have htail : q.tail < 1024 := q.tail_lt
  have hmask : q.chars = sub32 q.head q.tail % 1024 := Nat.and_two_pow_sub_one_eq_mod _ 10
  rw [hmask, q.used_eq]
  unfold sub32 ttyBufSize
  split <;> omega

/-- One cell stays free. -/
theorem left_eq : q.left = 1023 - q.used := by
  have hhead : q.head < 1024 := q.head_lt
  have htail : q.tail < 1024 := q.tail_lt
  have hmask : q.left = sub32 (sub32 q.tail q.head) 1 % 1024 := Nat.and_two_pow_sub_one_eq_mod _ 10
  rw [hmask, q.used_eq]
  unfold sub32 ttyBufSize
  split <;> omega

theorem foldl_putch (l : List UInt8) : l.foldl putch q = l.foldl Lib.Ring.put q := by
  induction l generalizing q with
  | nil => rfl
  | cons c l ih => rw [List.foldl_cons, List.foldl_cons, putch_eq, ih]

end TtyQueue

/-! ## con_write -/

/-- If nobody reads the answers, the console does what the bytes of the write queue say. -/
theorem conWriteLoop_console {copyToCooked : Console × Tty → Console × Tty}
    (hcopy : ∀ s tty, ∃ readQ secondary, copyToCooked (s, tty) = (s, { tty with readQ, secondary })) (nr : Nat) :
    ∀ {s : Console} {tty : Tty}, nr = tty.writeQ.used →
      (conWriteLoop copyToCooked nr (s, tty)).1 = s.conWrite tty.eraseChar tty.writeQ.contents := by
  induction nr with
  | zero =>
    intro s tty hnr
    have hnil : tty.writeQ.contents = [] := List.length_eq_zero_iff.mp (by simp [← hnr])
    rw [hnil]
    rfl
  | succ nr ih =>
    intro s tty hnr
    have hone : 1 ≤ tty.writeQ.used := by omega
    have hend : tty.writeQ.tail + 1 ≤ ttyBufSize := tty.writeQ.tail_lt
    have hcontents : tty.writeQ.contents = tty.writeQ.cell tty.writeQ.tail :: (tty.writeQ.drop 1).contents :=
      tty.writeQ.contents_drop hone hend
    have hrest : nr = (tty.writeQ.drop 1).used := by
      rw [tty.writeQ.used_drop hone]
      omega
    show (conWriteLoop copyToCooked nr (conWriteChar copyToCooked (s, _) tty.writeQ.getch.1)).1 = _
    rw [TtyQueue.getch_eq, hcontents]
    unfold Console.conWrite
    rw [List.foldl_cons]
    unfold conWriteChar
    split
    · next hz =>
      obtain ⟨hstate, hc⟩ := hz
      dsimp only at hstate hc
      -- The answer changes nothing on the console.
      obtain ⟨readQ, secondary, hanswer⟩ := hcopy { s with state := 0 }
        { tty with writeQ := tty.writeQ.drop 1, readQ := response.foldl TtyQueue.putch tty.readQ }
      have hputc : s.putc tty.eraseChar (tty.writeQ.cell tty.writeQ.tail) = { s with state := 0 } := by
        unfold Console.putc
        rw [hstate]
        unfold Console.case1
        rw [hc]
        rfl
      unfold respond
      rw [hanswer, hputc]
      exact ih hrest
    · exact ih hrest

/-! ## The answer -/

/-- What was unread is still unread, in its order, and as much of the answer as there was room for is behind it. -/
def KeepsUnread (q q' : TtyQueue) : Prop := q'.contents = q.contents ++ response.take q.left

/-- The answer to `ESC Z` keeps what is unread if and only if all of it fits: it is then behind it. -/
theorem respond_keeps_iff (q : TtyQueue) :
    KeepsUnread q (response.foldl TtyQueue.putch q) ↔ q.chars + response.length < ttyBufSize := by
  have hused := q.used_puts response
  have hlt : q.used < ttyBufSize := q.used_lt
  unfold KeepsUnread
  rw [TtyQueue.chars_eq, TtyQueue.foldl_putch, TtyQueue.left_eq]
  constructor
  · intro hkeeps
    have hlength := congrArg List.length hkeeps
    rw [Lib.Ring.contents_length, List.length_append, Lib.Ring.contents_length, hused] at hlength
    by_contra hfull
    have hwrap : (q.used + response.length) % ttyBufSize = q.used + response.length - ttyBufSize := by
      rw [Nat.mod_eq_sub_mod (Nat.not_lt.mp hfull)]
      exact Nat.mod_eq_of_lt (Nat.sub_lt_left_of_lt_add (Nat.not_lt.mp hfull) (Nat.add_lt_add hlt (by decide)))
    have hseven : response.length < ttyBufSize := by decide
    -- The head has gone around, and less is unread than before.
    omega
  · intro hroom
    have hall : response.length ≤ 1023 - q.used := by
      have htty : ttyBufSize = 1024 := rfl
      omega
    rw [q.contents_puts response hroom, List.take_of_length_le hall]

/-- `ESC Z` on any console and any terminal: `copy_to_cooked` finds the read queue with everything that was unread, and
the answer behind it, if and only if there is room for the whole answer. -/
theorem escZ_keeps_iff (s : Console) (tty : Tty) : ∃ q,
    (∀ copyToCooked, conWriteChar copyToCooked (conWriteChar copyToCooked ({ s with state := 0 }, tty) 27) 'Z'.toUInt8 =
      copyToCooked ({ s with state := 0 }, { tty with readQ := q })) ∧
    (KeepsUnread tty.readQ q ↔ tty.readQ.chars + response.length < ttyBufSize) :=
  ⟨_, fun _ => rfl, respond_keeps_iff tty.readQ⟩

/-- 1017 characters are unread. -/
def crowded : TtyQueue := ⟨fun _ => 97, 1017, 0, by decide, by decide⟩

/-- The answer goes around, and nothing is unread any more. -/
theorem escZ_loses : crowded.chars = 1017 ∧ (response.foldl TtyQueue.putch crowded).chars = 0 ∧
    ¬ KeepsUnread crowded (response.foldl TtyQueue.putch crowded) := by
  refine ⟨by decide, by decide, fun hkeeps => ?_⟩
  have hlength := congrArg List.length hkeeps
  rw [List.length_append, Lib.Ring.contents_length, Lib.Ring.contents_length, ← TtyQueue.chars_eq,
    ← TtyQueue.chars_eq] at hlength
  revert hlength
  decide

end Linux011.Chr
