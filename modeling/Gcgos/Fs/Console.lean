import Gcgos.Fs.File
import Gcgos.Lib.Run

/-!
# Console input

`consoleintr` and `console_read` of `kernel/console.c` for readers that take one
byte at a time. The write cursor runs on and is reduced where it is used; the read
cursor is reset to zero when it has passed `INPUT_BUF_SIZE`, one byte too late. Up
to that reset the ring is a queue.
-/

set_option autoImplicit false

namespace Gcgos.Fs

open Act

abbrev newline : UInt8 := 10
abbrev carriageReturn : UInt8 := 13

/-- `cons.buf[cons.w++ % INPUT_BUF_SIZE] = c;`. -/
def Cons.receive (cons : Cons) (c : UInt8) : Cons :=
  { cons with
    buf := Function.update cons.buf ⟨cons.w.toNat % inputBufSize, Nat.mod_lt _ (by decide)⟩ c
    w := cons.w + 1 }

/-- `wakeup(&cons.r)` at the end of a line. -/
def lineWakeup (c : UInt8) : Act Fault State Unit :=
  if c = newline ∨ c = carriageReturn then recordWakeup .consR else pure ()

def consoleintr (c : UInt8) : Act Fault State Unit := do
  Act.modify fun s => { s with cons := s.cons.receive c }
  lineWakeup c

/-- The read cursor after one byte. -/
def nextRead (r : UInt32) : UInt32 := if inputBufSize < (r + 1).toNat then 0 else r + 1

/-- A read of one byte that does not sleep. -/
theorem consoleRead_one {s : State} (ready : s.cons.r ≠ s.cons.w)
    (started : s.cons.buf 0 ≠ 0) :
    consoleRead 1 s = .ok ((1,
      [(0, s.cons.buf ⟨s.cons.r.toNat % inputBufSize, Nat.mod_lt _ (by decide)⟩)]),
      { s with
        cons := { s.cons with
          r := nextRead s.cons.r
          out := s.cons.out ++
            [s.cons.buf ⟨s.cons.r.toNat % inputBufSize, Nat.mod_lt _ (by decide)⟩] } }) := by
  unfold consoleRead
  rw [if_neg ready]
  simp [asInt, consoleReadLoop, started, nextRead]

theorem consoleRead_sleeps {s : State} (empty : s.cons.r = s.cons.w) (n : Nat) :
    consoleRead n s = .error (.sleep .consR) := by
  unfold consoleRead
  rw [if_pos empty]

/-- The file system with the characters received and the bytes delivered so far. -/
structure Session where
  fs : State
  received : List UInt8
  delivered : List UInt8

/-- Characters arrive while there is room for them, one byte is read, or something
else happens that leaves the ring alone. -/
inductive SessionStep (allowed : Session → Prop) : Session → Session → Prop where
  | intr {s : Session} {c : UInt8} {t : State} (proper : c ≠ 0)
      (room : s.received.length < s.delivered.length + inputBufSize)
      (returned : consoleintr c s.fs = .ok ((), t)) :
      SessionStep allowed s ⟨t, s.received ++ [c], s.delivered⟩
  | read {s : Session} {r : Int} {stores : List (Nat × UInt8)} {t : State} (may : allowed s)
      (returned : consoleRead 1 s.fs = .ok ((r, stores), t)) :
      SessionStep allowed s ⟨t, s.received, s.delivered ++ stores.map Prod.snd⟩
  | other {s : Session} {t : State} (buf : t.cons.buf = s.fs.cons.buf) (r : t.cons.r = s.fs.cons.r)
      (w : t.cons.w = s.fs.cons.w) : SessionStep allowed s ⟨t, s.received, s.delivered⟩

/-- The console as the loader leaves it. -/
def FreshConsole (s : Session) : Prop :=
  s.received = [] ∧ s.delivered = [] ∧ s.fs.cons.r = 0 ∧ s.fs.cons.w = 0

/-- The read cursor has not been reset: no read after the 129th. -/
def BeforeReset (s : Session) : Prop := s.delivered.length ≤ inputBufSize

/-- The ring holds the unread characters in order. -/
structure Queued (s : Session) : Prop where
  written : s.fs.cons.w.toNat = s.received.length
  cursor : s.fs.cons.r.toNat =
    if s.delivered.length ≤ inputBufSize then s.delivered.length else 0
  few : s.delivered.length ≤ inputBufSize + 1
  room : s.delivered.length ≤ s.received.length ∧
    s.received.length ≤ s.delivered.length + inputBufSize
  fifo : s.delivered = s.received.take s.delivered.length
  proper : ∀ c ∈ s.received, c ≠ 0
  ring : ∀ k, s.delivered.length ≤ k → (bound : k < s.received.length) →
    s.fs.cons.buf ⟨k % inputBufSize, Nat.mod_lt _ (by decide)⟩ = s.received.get ⟨k, bound⟩
  started : s.received ≠ [] → s.fs.cons.buf 0 ≠ 0

theorem FreshConsole.queued {s : Session} (fresh : FreshConsole s) : Queued s := by
  obtain ⟨received, delivered, r, w⟩ := fresh
  constructor
  case written => rw [w, received]; rfl
  case cursor => rw [r, delivered]; rfl
  case few => rw [delivered]; decide
  case room => rw [received, delivered]; decide
  case fifo => rw [received, delivered]; rfl
  case proper => rw [received]; simp
  case ring =>
    intro k _ bound
    rw [received] at bound
    cases bound
  case started => exact fun nonempty => absurd received nonempty

theorem Queued.intr {s : Session} {c : UInt8} {t : State} (queued : Queued s) (proper : c ≠ 0)
    (room : s.received.length < s.delivered.length + inputBufSize)
    (returned : consoleintr c s.fs = .ok ((), t)) :
    Queued ⟨t, s.received ++ [c], s.delivered⟩ := by
  have cons : t.cons = s.fs.cons.receive c := by
    unfold consoleintr at returned
    rw [Act.bind_of_ok (f := Act.modify _) rfl] at returned
    unfold lineWakeup at returned
    split at returned
    · cases returned
      rfl
    · cases returned
      rfl
  have few := queued.few
  have bounds := queued.room
  have slot : s.fs.cons.w.toNat % inputBufSize = s.received.length % inputBufSize := by
    rw [queued.written]
  have prefix' : s.delivered.length ≤ s.received.length := bounds.1
  constructor
  case written =>
    have next : (s.fs.cons.w + 1).toNat = s.fs.cons.w.toNat + 1 := by
      rw [UInt32.toNat_add]
      apply Nat.mod_eq_of_lt
      have := queued.written
      simp only [inputBufSize] at *
      simp only [UInt32.toNat_one]
      omega
    rw [cons, List.length_append]
    change (s.fs.cons.w + 1).toNat = _
    rw [next, queued.written]
    rfl
  case cursor =>
    rw [cons]
    exact queued.cursor
  case few => exact few
  case room =>
    rw [List.length_append, List.length_singleton]
    dsimp only
    omega
  case fifo =>
    change s.delivered = _
    rw [List.take_append_of_le_length prefix']
    exact queued.fifo
  case proper =>
    intro d member
    rcases List.mem_append.mp member with old | new
    · exact queued.proper d old
    · rw [List.mem_singleton.mp new]
      exact proper
  case ring =>
    intro k lower bound
    rw [cons]
    by_cases last : k = s.received.length
    · subst last
      simp [Cons.receive, slot]
    · have before : k < s.received.length := by
        rw [List.length_append, List.length_singleton] at bound
        omega
      have other : k % inputBufSize ≠ s.received.length % inputBufSize := by
        dsimp only at lower
        simp only [inputBufSize] at *
        omega
      simp only [Cons.receive]
      rw [Function.update_of_ne (by simpa [slot] using other), queued.ring k lower before]
      simp [List.getElem_append_left before]
  case started =>
    intro _
    rw [cons]
    by_cases first : s.received.length % inputBufSize = 0
    · simp [Cons.receive, slot, first, proper]
    · have nonempty : s.received ≠ [] := by
        rintro empty
        rw [empty] at first
        exact first rfl
      simp only [Cons.receive]
      rw [Function.update_of_ne]
      · exact queued.started nonempty
      · intro same
        apply first
        rw [← slot]
        exact (congrArg Fin.val same).symm

/-- What the next read does. -/
theorem Queued.read_iff {s : Session} (queued : Queued s) (before : BeforeReset s) :
    (∀ outcome, consoleRead 1 s.fs = .ok outcome →
      ∃ c, s.received[s.delivered.length]? = some c ∧ outcome.1 = (1, [(0, c)]) ∧
        outcome.2.cons.buf = s.fs.cons.buf ∧ outcome.2.cons.w = s.fs.cons.w ∧
        outcome.2.cons.r = nextRead s.fs.cons.r) ∧
    (s.delivered.length < s.received.length → ∃ outcome, consoleRead 1 s.fs = .ok outcome) := by
  unfold BeforeReset at before
  have cursor := queued.cursor
  rw [if_pos before] at cursor
  have bounds := queued.room
  by_cases unread : s.delivered.length < s.received.length
  · have ready : s.fs.cons.r ≠ s.fs.cons.w := by
      intro same
      rw [same, queued.written] at cursor
      omega
    have nonempty : s.received ≠ [] := by
      intro empty
      rw [empty] at unread
      exact Nat.not_lt_zero _ unread
    have returned := consoleRead_one ready (queued.started nonempty)
    constructor
    · intro outcome run
      rw [returned] at run
      cases run
      refine ⟨s.received.get ⟨s.delivered.length, unread⟩, ?_, ?_, rfl, rfl, rfl⟩
      · simp
      · rw [← queued.ring s.delivered.length le_rfl unread]
        simp [cursor]
    · intro _
      exact ⟨_, returned⟩
  · have empty : s.fs.cons.r = s.fs.cons.w := by
      apply UInt32.toNat_inj.mp
      rw [cursor, queued.written]
      omega
    constructor
    · intro outcome run
      rw [consoleRead_sleeps empty] at run
      cases run
    · intro more
      exact absurd more unread

theorem Queued.read {s : Session} {r : Int} {stores : List (Nat × UInt8)} {t : State}
    (queued : Queued s) (before : BeforeReset s)
    (returned : consoleRead 1 s.fs = .ok ((r, stores), t)) :
    Queued ⟨t, s.received, s.delivered ++ stores.map Prod.snd⟩ := by
  obtain ⟨c, next, outcome, buf, w, cursor⟩ := (queued.read_iff before).1 _ returned
  obtain ⟨rfl, rfl⟩ := Prod.mk.inj outcome
  have unread : s.delivered.length < s.received.length := by
    by_contra none
    rw [List.getElem?_eq_none (by omega)] at next
    cases next
  have length : (s.delivered ++ [c]).length = s.delivered.length + 1 := by simp
  have bounds := queued.room
  have old := queued.cursor
  unfold BeforeReset at before
  rw [if_pos before] at old
  have step : (s.fs.cons.r + 1).toNat = s.delivered.length + 1 := by
    rw [UInt32.toNat_add, old]
    apply Nat.mod_eq_of_lt
    simp only [inputBufSize, UInt32.toNat_one] at *
    omega
  constructor
  case written =>
    change t.cons.w.toNat = _
    rw [w]
    exact queued.written
  case cursor =>
    change t.cons.r.toNat = _
    rw [cursor]
    unfold nextRead
    simp only [List.map_cons, List.map_nil, length, step]
    by_cases last : s.delivered.length + 1 ≤ inputBufSize
    · rw [if_neg (Nat.not_lt.mpr last), if_pos last, step]
    · rw [if_pos (Nat.not_le.mp last), if_neg last]
      rfl
  case few =>
    simp only [List.map_cons, List.map_nil, length]
    omega
  case room =>
    simp only [List.map_cons, List.map_nil, length]
    omega
  case fifo =>
    simp only [List.map_cons, List.map_nil, length]
    rw [List.take_add_one, ← queued.fifo, next]
    rfl
  case proper => exact queued.proper
  case ring =>
    intro k lower bound
    simp only [List.map_cons, List.map_nil, length] at lower
    change t.cons.buf _ = _
    rw [buf]
    exact queued.ring k (by omega) bound
  case started =>
    intro nonempty
    change t.cons.buf 0 ≠ 0
    rw [buf]
    exact queued.started nonempty

theorem Queued.step {s t : Session} (queued : Queued s) (step : SessionStep BeforeReset s t) :
    Queued t := by
  cases step with
  | intr proper room returned => exact queued.intr proper room returned
  | read may returned => exact queued.read may returned
  | other buf r w =>
      exact ⟨by rw [w]; exact queued.written, by rw [r]; exact queued.cursor, queued.few,
        queued.room, queued.fifo, queued.proper, by rw [buf]; exact queued.ring,
        by rw [buf]; exact queued.started⟩

theorem session_queued {n : Nat} {s : Session}
    (run : ReachIn FreshConsole (SessionStep BeforeReset) n s) : Queued s :=
  run.invariant (fun _ fresh => fresh.queued) fun _ _ queued step => queued.step step

/-- In every run of interrupts and reads of one byte with at most 128 unread
characters, in which no read begins after the read cursor has been reset, the
bytes delivered are the characters received, in order; and before the reset a read
completes exactly when there is an unread character, which it delivers. -/
theorem console_is_fifo {n : Nat} {s : Session}
    (run : ReachIn FreshConsole (SessionStep BeforeReset) n s) :
    s.delivered = s.received.take s.delivered.length ∧
      s.delivered.length ≤ s.received.length ∧
      (BeforeReset s →
        (∀ outcome, consoleRead 1 s.fs = .ok outcome →
          ∃ c, s.received[s.delivered.length]? = some c ∧ outcome.1 = (1, [(0, c)])) ∧
        (s.delivered.length < s.received.length →
          ∃ outcome, consoleRead 1 s.fs = .ok outcome)) := by
  have queued := session_queued run
  refine ⟨queued.fifo, queued.room.1, ?_⟩
  intro before
  obtain ⟨delivers, completes⟩ := queued.read_iff before
  refine ⟨?_, completes⟩
  intro outcome returned
  obtain ⟨c, next, value, _⟩ := delivers outcome returned
  exact ⟨c, next, value⟩

/-- The loaded console. -/
def quietSession : Session := ⟨State.loaded fun _ => Block.zero, [], []⟩

/-- As long as the cursor has not been reset a key is typed and read. -/
theorem typed_and_read (k : Nat) (few : k ≤ inputBufSize + 1) :
    ∃ fs, ReachIn FreshConsole (SessionStep BeforeReset) (2 * k)
      ⟨fs, List.replicate k 97, List.replicate k 97⟩ := by
  induction k with
  | zero => exact ⟨_, ReachIn.start (s := quietSession) ⟨rfl, rfl, rfl, rfl⟩⟩
  | succ k ih =>
      obtain ⟨fs, run⟩ := ih (by omega)
      have before : BeforeReset ⟨fs, List.replicate k 97 ++ [97], List.replicate k 97⟩ := by
        unfold BeforeReset
        rw [List.length_replicate]
        omega
      have typed : SessionStep BeforeReset ⟨fs, List.replicate k 97, List.replicate k 97⟩
          ⟨{ fs with cons := fs.cons.receive 97 }, List.replicate k 97 ++ [97],
            List.replicate k 97⟩ :=
        .intr (by decide) (by simp only [List.length_replicate, inputBufSize]; omega) rfl
      have queued := session_queued (ReachIn.next run typed)
      obtain ⟨delivers, completes⟩ := queued.read_iff before
      obtain ⟨⟨⟨r, stores⟩, t⟩, returned⟩ := completes (by simp)
      obtain ⟨c, next, value, _⟩ := delivers _ returned
      obtain ⟨rfl, rfl⟩ := Prod.mk.inj value
      have char : c = 97 := by simpa using next.symm
      subst char
      refine ⟨t, ?_⟩
      have done := ReachIn.next (ReachIn.next run typed) (.read before returned)
      rw [List.replicate_succ']
      exact done

/-- The first key is typed and read. -/
theorem console_is_fifo_one :
    ∃ s, ReachIn FreshConsole (SessionStep BeforeReset) 2 s ∧ s.delivered = [97] ∧
      s.delivered = s.received.take s.delivered.length := by
  obtain ⟨fs, run⟩ := typed_and_read 1 (by decide)
  exact ⟨_, run, rfl, (console_is_fifo run).1⟩

/-- After 129 characters, all of them read, one more read completes. -/
theorem read_completes_without_input :
    ∃ n s, ReachIn FreshConsole (SessionStep fun _ => True) n s ∧
      s.delivered.length = s.received.length ∧ ∃ outcome, consoleRead 1 s.fs = .ok outcome := by
  obtain ⟨fs, run⟩ := typed_and_read (inputBufSize + 1) le_rfl
  have queued := session_queued run
  refine ⟨_, _, run.mono ?_, rfl, _, consoleRead_one ?_ (queued.started (by simp))⟩
  · intro s t taken
    cases taken with
    | intr proper room returned => exact .intr proper room returned
    | read may returned => exact .read trivial returned
    | other buf r w => exact .other buf r w
  intro same
  have written := queued.written
  have cursor := queued.cursor
  rw [← same, cursor] at written
  simp [inputBufSize] at written

end Gcgos.Fs
