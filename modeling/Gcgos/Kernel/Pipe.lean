import Gcgos.Kernel.Return

/-!
# Traffic on a pipe

What `sys_pipe` promises its caller: the numbers of the two descriptors in the
array, and a channel that hands on the bytes in order, reports how many it has
moved and keeps its cursors inside the buffer. The code writes the numbers 0 and
1 whatever slots it has taken, and its two transfers return 0 and -1 whatever
they have moved.
-/

set_option autoImplicit false

namespace Gcgos.Kernel

open Act ByteMap Fs

section

variable (link : Link)

/-- `sys_pipe` up to the array: the ends are made and put into slots. -/
def pipeInstall (cp : Fin NPROC) : Act Fault State Unit := do
  let (rfd, wfd) ← pipeAlloc link
  let f1 ← fdUalloc cp
  modifyProc cp fun p => p.install link f1 rfd
  let f2 ← fdUalloc cp
  modifyProc cp fun p => p.install link f2 wfd

end

/-- One call on a pipe: whether it writes, the bytes that the user has given or
received, the cursor it starts at and what it returns. -/
structure PipeCall where
  writes : Bool
  bytes : List UInt8
  cursor : Int
  result : Int

/-- A process with a descriptor for the end in question calls `sys_write` or
`sys_read`. -/
inductive PipeStep (link : Link) (rfd wfd : Fin NFD) (s t : State) : PipeCall → Prop where
  | write (cp : Fin NPROC) (slot : Fin NOFILE) (stack : Nat → UInt8) {bytes : List UInt8}
      {cursor result : Int} (number : s.register cp 0 = slot.val)
      (opened : (s.proc cp).fds slot = some wfd)
      (given : argaddr link cp 1 (s.register cp 2) s = .ok (bytes, s))
      (start : load32 link ((s.fds wfd).pipe + 12) s.mm = .ok (cursor, s.mm))
      (returned : sysWrite link cp stack s = .ok (result, t)) :
      PipeStep link rfd wfd s t ⟨true, bytes, cursor, result⟩
  | read (cp : Fin NPROC) (slot : Fin NOFILE) {buf : Nat} {cursor result : Int}
      (number : s.register cp 0 = slot.val) (opened : (s.proc cp).fds slot = some rfd)
      (place : userAddr link cp (sext64 (s.register cp 1)) s = .ok (buf, s))
      (start : load32 link ((s.fds rfd).pipe + 8) s.mm = .ok (cursor, s.mm))
      (returned : sysRead link cp s = .ok (result, t)) :
      PipeStep link rfd wfd s t
        ⟨false, getBytes t.mm.mem buf (s.register cp 2).toNat, cursor, result⟩

/-- What happens between two calls on a pipe, of user code or of the kernel, a
`fork` for one: the ends stay what they are and the pipe is not touched. -/
structure Aside (rfd wfd : Fin NFD) (s t : State) : Prop where
  reader : (s.fds rfd).SameFile (t.fds rfd)
  writer : (s.fds wfd).SameFile (t.fds wfd)
  page : ∀ k, k < 16 + PIPESIZE →
    t.mm.mem ((s.fds wfd).pipe + k) = s.mm.mem ((s.fds wfd).pipe + k)

/-- An interleaving of calls on a pipe. -/
inductive PipeRun (link : Link) (rfd wfd : Fin NFD) (s : State) : List PipeCall → State → Prop where
  | start : PipeRun link rfd wfd s [] s
  | next {calls : List PipeCall} {call : PipeCall} {t u v : State}
      (run : PipeRun link rfd wfd s calls t) (aside : Aside rfd wfd t u)
      (step : PipeStep link rfd wfd u v call) : PipeRun link rfd wfd s (calls ++ [call]) v

/-- The bytes that the calls of one direction have moved, in order. -/
def moved (writes : Bool) (calls : List PipeCall) : List UInt8 :=
  (calls.filter fun call => call.writes = writes).flatMap PipeCall.bytes

/-- The array that the argument of `sys_pipe` points to holds these numbers. -/
def Stored (link : Link) (s t : State) (cp : Fin NPROC) (first second : Int) : Prop :=
  ∃ u pa, pipeInstall link cp s = .ok ((), u) ∧
    userAddr link cp (sext64 (u.register cp 0)) u = .ok (pa, u) ∧
    load32 link pa t.mm = .ok (first, t.mm) ∧ load32 link (pa + 4) t.mm = .ok (second, t.mm)

/-- The two entries are the ends of a pipe. -/
structure PipeEnds (s : State) (rfd wfd : Fin NFD) : Prop where
  reader : (s.fds rfd).type = .FD_PIPE ∧ (s.fds rfd).readable = true
  writer : (s.fds wfd).type = .FD_PIPE ∧ (s.fds wfd).writeable = true

section

variable {link : Link} {rfd wfd : Fin NFD}

theorem PipeEnds.congr {s t : State} (ends : PipeEnds s rfd wfd) (same : t.fds = s.fds) :
    PipeEnds t rfd wfd := by
  obtain ⟨reader, writer⟩ := ends
  exact ⟨by rw [same]; exact reader, by rw [same]; exact writer⟩

theorem Aside.ends {s t : State} (aside : Aside rfd wfd s t) (ends : PipeEnds s rfd wfd) :
    PipeEnds t rfd wfd := by
  refine ⟨⟨?_, ?_⟩, ?_, ?_⟩
  · exact aside.reader.type.trans ends.reader.1
  · exact aside.reader.readable.trans ends.reader.2
  · exact aside.writer.type.trans ends.writer.1
  · exact aside.writer.writeable.trans ends.writer.2

theorem fdSlot_of_slot (slot : Fin NOFILE) (s : State) :
    fdSlot slot.val s = .ok (slot, s) := by
  have inside : 0 ≤ (slot.val : Int) ∧ (slot.val : Int) < NOFILE := by omega
  unfold fdSlot
  rw [dif_pos inside]
  rfl

theorem fdEntry_of_open {s : State} {cp : Fin NPROC} {slot : Fin NOFILE} {e : Fin NFD}
    (opened : (s.proc cp).fds slot = some e) : fdEntry cp slot s = .ok (e, s) := by
  unfold fdEntry
  refine (Act.bind_of_ok (a := s.proc cp) rfl).trans ?_
  rw [opened]
  rfl

theorem pipeWrite_zero (page : Nat) (stack : Nat → UInt8) (n : Int) (m : Mm) :
    Ensures (pipeWrite link page stack n) m fun result _ => result = 0 :=
  Ensures.seq (m := fun _ _ => True) (fun _ _ _ => trivial) fun _ _ _ => Ensures.pure rfl

theorem pipeRead_failed (page buf : Nat) (n : Int) (m : Mm) :
    Ensures (pipeRead link page buf n) m fun result _ => result = -1 :=
  Ensures.seq (m := fun _ _ => True) (fun _ _ _ => trivial) fun _ _ _ => Ensures.pure rfl

theorem sysWrite_pipe {s : State} {cp : Fin NPROC} {slot : Fin NOFILE} (stack : Nat → UInt8)
    (number : s.register cp 0 = slot.val) (opened : (s.proc cp).fds slot = some wfd)
    (writer : (s.fds wfd).type = .FD_PIPE ∧ (s.fds wfd).writeable = true) :
    Ensures (sysWrite link cp stack) s fun result t => result = 0 ∧ t.fds = s.fds := by
  unfold sysWrite
  refine Ensures.seq (argraw_ensures cp 0 s) ?_
  rintro fd _ ⟨fetched, rfl⟩
  rw [fetched, number]
  refine Ensures.seq (argraw_ensures cp 2 _) ?_
  rintro n _ ⟨-, rfl⟩
  refine Ensures.seq (argaddr_look cp 1 n _) ?_
  rintro buf _ rfl
  apply Ensures.guard
  intro _
  refine Ensures.step (fdSlot_of_slot slot _) ?_
  refine Ensures.step (fdEntry_of_open opened) ?_
  unfold fdWrite
  refine Ensures.step rfl ?_
  rw [if_neg (by simp [writer.2]), writer.1]
  exact Ensures.zoom ((pipeWrite_zero _ stack n _).mono fun _ _ zero => ⟨zero, rfl⟩)

theorem sysRead_pipe {s : State} {cp : Fin NPROC} {slot : Fin NOFILE}
    (number : s.register cp 0 = slot.val) (opened : (s.proc cp).fds slot = some rfd)
    (reader : (s.fds rfd).type = .FD_PIPE ∧ (s.fds rfd).readable = true) :
    Ensures (sysRead link cp) s fun result t => result = -1 ∧ t.fds = s.fds := by
  unfold sysRead
  refine Ensures.seq (argraw_ensures cp 0 s) ?_
  rintro fd _ ⟨fetched, rfl⟩
  rw [fetched, number]
  refine Ensures.seq (argraw_ensures cp 2 _) ?_
  rintro n _ ⟨-, rfl⟩
  refine Ensures.seq (argraw_ensures cp 1 _) ?_
  rintro uva _ ⟨-, rfl⟩
  refine Ensures.seq (userAddr_look cp _ _) ?_
  rintro buf _ rfl
  refine Ensures.step (fdSlot_of_slot slot _) ?_
  refine Ensures.step (fdEntry_of_open opened) ?_
  unfold fdRead
  refine Ensures.step rfl ?_
  rw [if_neg (by simp [reader.2]), reader.1]
  exact Ensures.zoom ((pipeRead_failed _ buf n _).mono fun _ _ failed => ⟨failed, rfl⟩)

/-- A write returns 0 and a read -1. -/
theorem PipeStep.result {s t : State} {call : PipeCall} (ends : PipeEnds s rfd wfd)
    (step : PipeStep link rfd wfd s t call) :
    call.result = (if call.writes then 0 else -1) ∧ PipeEnds t rfd wfd := by
  cases step with
  | write cp slot stack number opened given start returned =>
      obtain ⟨zero, same⟩ := sysWrite_pipe stack number opened ends.writer _ _ returned
      exact ⟨zero, ends.congr same⟩
  | read cp slot number opened place start returned =>
      obtain ⟨failed, same⟩ := sysRead_pipe number opened ends.reader _ _ returned
      exact ⟨failed, ends.congr same⟩

theorem PipeRun.results {s t : State} {calls : List PipeCall} (ends : PipeEnds s rfd wfd)
    (run : PipeRun link rfd wfd s calls t) :
    (∀ call ∈ calls, call.result = if call.writes then 0 else -1) ∧ PipeEnds t rfd wfd := by
  induction run with
  | start => exact ⟨by simp, ends⟩
  | next _ aside step ih =>
      obtain ⟨results, ends'⟩ := ih
      obtain ⟨result, ends''⟩ := step.result (aside.ends ends')
      refine ⟨?_, ends''⟩
      intro call member
      rcases List.mem_append.mp member with before | last
      · exact results call before
      · rw [List.mem_singleton.mp last]
        exact result

end

/-! ## What `sys_pipe` reports -/

section

variable {link : Link} {rfd wfd : Fin NFD}

theorem Stored.unique {s t : State} {cp : Fin NPROC} {first second first' second' : Int}
    (left : Stored link s t cp first second) (right : Stored link s t cp first' second') :
    first = first' ∧ second = second' := by
  obtain ⟨u, pa, installed, found, one, two⟩ := left
  obtain ⟨u', pa', installed', found', one', two'⟩ := right
  rw [installed] at installed'
  cases installed'
  rw [found] at found'
  cases found'
  rw [one] at one'
  rw [two] at two'
  cases one'
  cases two'
  exact ⟨rfl, rfl⟩

end

section

variable {link : Link} {rfd wfd : Fin NFD}

end

end Gcgos.Kernel
