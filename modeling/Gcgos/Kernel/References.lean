import Gcgos.Kernel.Arrays
import Gcgos.Kernel.Tree
import Gcgos.Lib.RefCount
import Mathlib.Data.Fintype.Prod

/-!
# The reference counts of the descriptor table

Along every run of `open`, `pipe`, `close`, `fork` and `exit`, by any processes,
the counter of an entry of `fds[]` is the number of slots that point to it, and
the entry is free exactly when there is none. Two slips break this. `fd_close`
marks an entry as free whether or not others still hold it, and a call that
finds no free slot leaves its entry without a holder. The runs in question have
neither.
-/

set_option autoImplicit false

namespace Gcgos.Kernel

open Act

/-- The slots of all processes. -/
def State.slots (s : State) (h : Fin NPROC × Fin NOFILE) : Option (Fin NFD) := (s.proc h.1).fds h.2

/-- Every entry is counted, and the slots of an unused process are empty. -/
structure Descriptors (s : State) : Prop where
  counted : RefCounted s.slots (fun e => (s.fds e).type ≠ .FD_CLOSE) fun e => (s.fds e).ref
  unused : ∀ p, (s.proc p).state = .UNUSED → ∀ i, (s.proc p).fds i = none

/-- The file or pipe behind an entry and the access mode. -/
structure Fd.SameFile (fd fd' : Fd) : Prop where
  type : fd'.type = fd.type
  ip : fd'.ip = fd.ip
  pipe : fd'.pipe = fd.pipe
  readable : fd'.readable = fd.readable
  writeable : fd'.writeable = fd.writeable

theorem Fd.SameFile.refl (fd : Fd) : fd.SameFile fd := ⟨rfl, rfl, rfl, rfl, rfl⟩

theorem Fd.SameFile.trans {first second third : Fd} (left : first.SameFile second)
    (right : second.SameFile third) : first.SameFile third :=
  ⟨right.type.trans left.type, right.ip.trans left.ip, right.pipe.trans left.pipe,
    right.readable.trans left.readable, right.writeable.trans left.writeable⟩

/-- A descriptor refers to what it referred to before. -/
def Kept (s t : State) (h : Fin NPROC × Fin NOFILE) : Prop :=
  ∀ e, s.slots h = some e → t.slots h = some e ∧ (s.fds e).SameFile (t.fds e)

theorem Kept.trans {s t u : State} {h : Fin NPROC × Fin NOFILE} (left : Kept s t h)
    (right : Kept t u h) : Kept s u h := by
  intro e held
  obtain ⟨still, same⟩ := left e held
  obtain ⟨last, same'⟩ := right e still
  exact ⟨last, same.trans same'⟩

/-- Nothing happens to the descriptors: the offset of an open file may move. -/
structure Between (s t : State) : Prop where
  slots : ∀ p, (t.proc p).fds = (s.proc p).fds
  unused : ∀ p, (t.proc p).state = .UNUSED ↔ (s.proc p).state = .UNUSED
  fds : ∀ e, ∃ off, t.fds e = { s.fds e with off := off }

theorem Between.refl (s : State) : Between s s :=
  ⟨fun _ => rfl, fun _ => Iff.rfl, fun _ => ⟨_, rfl⟩⟩

theorem Calm.between {s t : State} (calm : Calm s t) : Between s t where
  slots p := (calm.proc p).fds
  unused p := (calm.proc p).unused
  fds e := ⟨(s.fds e).off, by rw [calm.fds]⟩

theorem Between.trans {s t u : State} (left : Between s t) (right : Between t u) :
    Between s u := by
  refine ⟨fun p => (right.slots p).trans (left.slots p),
    fun p => (right.unused p).trans (left.unused p), ?_⟩
  intro e
  obtain ⟨off, first⟩ := left.fds e
  obtain ⟨off', second⟩ := right.fds e
  exact ⟨off', by rw [second, first]⟩

theorem Between.slots_eq {s t : State} (between : Between s t) : t.slots = s.slots := by
  funext h
  unfold State.slots
  rw [between.slots]

theorem Between.sameFile {s t : State} (between : Between s t) (e : Fin NFD) :
    (s.fds e).SameFile (t.fds e) := by
  obtain ⟨off, same⟩ := between.fds e
  rw [same]
  exact ⟨rfl, rfl, rfl, rfl, rfl⟩

theorem Between.ref {s t : State} (between : Between s t) (e : Fin NFD) :
    (t.fds e).ref = (s.fds e).ref := by
  obtain ⟨off, same⟩ := between.fds e
  rw [same]

theorem Between.descriptors {s t : State} (between : Between s t) (sound : Descriptors s) :
    Descriptors t := by
  constructor
  case counted =>
    apply sound.counted.congr between.slots_eq
    · intro e
      rw [(between.sameFile e).type]
    · exact between.ref
  case unused =>
    intro p unused i
    rw [between.slots]
    exact sound.unused p ((between.unused p).mp unused) i

theorem Between.kept {s t : State} (between : Between s t) (h : Fin NPROC × Fin NOFILE) :
    Kept s t h := by
  intro e held
  rw [between.slots_eq]
  exact ⟨held, between.sameFile e⟩

/-- A free entry has been put into an empty slot. -/
structure Attached (s t : State) (h : Fin NPROC × Fin NOFILE) (e : Fin NFD) : Prop where
  free : (s.fds e).type = .FD_CLOSE
  empty : s.slots h = none
  owner : (s.proc h.1).state ≠ .UNUSED
  slots : t.slots = Function.update s.slots h (some e)
  unused : ∀ p, (t.proc p).state = .UNUSED ↔ (s.proc p).state = .UNUSED
  type : (t.fds e).type ≠ .FD_CLOSE
  ref : (t.fds e).ref = 1
  others : ∀ e', e' ≠ e → t.fds e' = s.fds e'

theorem Attached.descriptors {s t : State} {h : Fin NPROC × Fin NOFILE} {e : Fin NFD}
    (attached : Attached s t h e) (sound : Descriptors s) : Descriptors t := by
  constructor
  case counted =>
    refine sound.counted.attach attached.empty (not_not.mpr attached.free) attached.slots
      attached.type attached.ref ?_
    intro e' other
    rw [attached.others e' other]
    exact ⟨Iff.rfl, rfl⟩
  case unused =>
    intro p unused i
    have before := (attached.unused p).mp unused
    have other : (p, i) ≠ h := by
      rintro rfl
      exact attached.owner before
    have same := congrFun attached.slots (p, i)
    rw [Function.update_of_ne other] at same
    exact same.trans (sound.unused p before i)

theorem Attached.kept {s t : State} {h : Fin NPROC × Fin NOFILE} {e : Fin NFD}
    (attached : Attached s t h e) (sound : Descriptors s) (h' : Fin NPROC × Fin NOFILE) :
    Kept s t h' := by
  intro e' held
  have other : h' ≠ h := by
    rintro rfl
    rw [attached.empty] at held
    cases held
  have different : e' ≠ e := by
    rintro rfl
    exact (sound.counted.live e').mpr ⟨h', held⟩ attached.free
  rw [attached.slots, Function.update_of_ne other, attached.others e' different]
  exact ⟨held, Fd.SameFile.refl _⟩

/-- An entry has been marked free and taken out of a slot. -/
structure Detached (s t : State) (h : Fin NPROC × Fin NOFILE) (e : Fin NFD) : Prop where
  held : s.slots h = some e
  slots : t.slots = Function.update s.slots h none
  unused : ∀ p, (t.proc p).state = .UNUSED ↔ (s.proc p).state = .UNUSED
  type : (t.fds e).type = .FD_CLOSE
  others : ∀ e', e' ≠ e → t.fds e' = s.fds e'

theorem Detached.descriptors {s t : State} {h : Fin NPROC × Fin NOFILE} {e : Fin NFD}
    (detached : Detached s t h e) (once : (s.fds e).ref = 1) (sound : Descriptors s) :
    Descriptors t := by
  constructor
  case counted =>
    refine sound.counted.detach detached.held once detached.slots (not_not.mpr detached.type) ?_
    intro e' other
    rw [detached.others e' other]
    exact ⟨Iff.rfl, rfl⟩
  case unused =>
    intro p unused i
    have same := congrFun detached.slots (p, i)
    by_cases here : (p, i) = h
    · rw [here, Function.update_self, ← here] at same
      exact same
    · rw [Function.update_of_ne here] at same
      exact same.trans (sound.unused p ((detached.unused p).mp unused) i)

theorem Detached.kept {s t : State} {h h' : Fin NPROC × Fin NOFILE} {e : Fin NFD}
    (detached : Detached s t h e) (once : (s.fds e).ref = 1) (sound : Descriptors s)
    (other : h' ≠ h) : Kept s t h' := by
  intro e' held
  have different : e' ≠ e := by
    rintro rfl
    exact other (sound.counted.only once detached.held held)
  rw [detached.slots, Function.update_of_ne other, detached.others e' different]
  exact ⟨held, Fd.SameFile.refl _⟩

theorem pointers_eq_card (p : Proc) (e : Fin NFD) :
    p.pointers e = (Finset.univ.filter fun i => p.fds i = some e).card := by
  rw [Finset.card_def, Finset.filter_val]
  rfl

theorem Forked.descriptors {s t : State} {cp np : Fin NPROC} (forked : Forked s t cp np)
    (sound : Descriptors s) : Descriptors t := by
  have kept : ∀ h : Fin NPROC × Fin NOFILE, h.1 ≠ np → t.slots h = s.slots h := by
    intro h other
    unfold State.slots
    rw [forked.others h.1 other]
  have child : ∀ i, t.slots (np, i) = s.slots (cp, i) := by
    intro i
    unfold State.slots
    rw [forked.slots]
  constructor
  case counted =>
    apply sound.counted.share (d := Finset.univ.image fun i => (np, i))
    · intro h member
      obtain ⟨i, _, rfl⟩ := Finset.mem_image.mp member
      exact sound.unused np forked.unused i
    · intro h outside
      apply kept
      intro same
      apply outside
      apply Finset.mem_image.mpr
      exact ⟨h.2, Finset.mem_univ _, by rw [← same]⟩
    · intro h member e held
      obtain ⟨i, _, rfl⟩ := Finset.mem_image.mp member
      exact ⟨(cp, i), (child i).symm.trans held⟩
    · intro e
      rw [forked.fds]
    · intro e
      have copied : (Finset.univ.image fun i => (np, i)).filter (fun h => t.slots h = some e) =
          (Finset.univ.filter fun i => (s.proc cp).fds i = some e).image fun i => (np, i) := by
        rw [Finset.filter_image]
        simp only [child]
        rfl
      rw [forked.fds, copied, Finset.card_image_of_injective _ (Prod.mk_right_injective np),
        pointers_eq_card]
  case unused =>
    intro p unused i
    by_cases here : p = np
    · subst here
      rw [forked.state] at unused
      cases unused
    · rw [forked.others p here] at unused ⊢
      exact sound.unused p unused i

theorem Forked.kept {s t : State} {cp np : Fin NPROC} (forked : Forked s t cp np)
    (sound : Descriptors s) (h : Fin NPROC × Fin NOFILE) : Kept s t h := by
  intro e held
  have other : h.1 ≠ np := by
    intro here
    have empty := sound.unused np forked.unused h.2
    unfold State.slots at held
    rw [here, empty] at held
    cases held
  refine ⟨?_, ?_⟩
  · unfold State.slots
    rw [forked.others h.1 other]
    exact held
  · rw [forked.fds]
    exact ⟨rfl, rfl, rfl, rfl, rfl⟩

/-- The descriptors stay sound, and all but those in `closed` refer to what they
referred to. -/
def Preserves (s t : State) (closed : Fin NPROC × Fin NOFILE → Prop) : Prop :=
  Descriptors s → Descriptors t ∧ ∀ h, ¬closed h → Kept s t h

theorem Preserves.trans {s t u : State} {closed : Fin NPROC × Fin NOFILE → Prop}
    (left : Preserves s t closed) (right : Preserves t u closed) : Preserves s u closed := by
  intro sound
  obtain ⟨sound', kept⟩ := left sound
  obtain ⟨sound'', kept'⟩ := right sound'
  exact ⟨sound'', fun h stays => (kept h stays).trans (kept' h stays)⟩

theorem Between.preserves {s t : State} (between : Between s t)
    (closed : Fin NPROC × Fin NOFILE → Prop) : Preserves s t closed :=
  fun sound => ⟨between.descriptors sound, fun h _ => between.kept h⟩

theorem Attached.preserves {s t : State} {h : Fin NPROC × Fin NOFILE} {e : Fin NFD}
    (attached : Attached s t h e) (closed : Fin NPROC × Fin NOFILE → Prop) :
    Preserves s t closed :=
  fun sound => ⟨attached.descriptors sound, fun h' _ => attached.kept sound h'⟩

theorem Detached.preserves {s t : State} {h : Fin NPROC × Fin NOFILE} {e : Fin NFD}
    (detached : Detached s t h e) (once : (s.fds e).ref = 1)
    {closed : Fin NPROC × Fin NOFILE → Prop} (here : closed h) : Preserves s t closed := by
  intro sound
  refine ⟨detached.descriptors once sound, ?_⟩
  intro h' stays
  apply detached.kept once sound
  rintro rfl
  exact stays here

section

variable {link : Link}

theorem argraw_ensures (cp : Fin NPROC) (n : Nat) (s : State) :
    Ensures (argraw link cp n) s fun value t => value = s.register cp n ∧ t = s := by
  unfold argraw
  refine Ensures.step rfl ?_
  refine Ensures.seq (m := fun value t => value = word s.mm.mem ((s.proc cp).tf + 8 * n) ∧ t = s)
    ?_ ?_
  · apply Ensures.zoom
    unfold load64
    apply Ensures.guard
    intro _
    exact Ensures.reads ⟨rfl, rfl⟩
  · rintro value t ⟨same, rfl⟩
    apply Ensures.pure
    refine ⟨?_, rfl⟩
    rw [same]
    rfl

theorem userAddr_calm (cp : Fin NPROC) (uva : Nat) (s : State) :
    Ensures (userAddr link cp uva) s fun _ t => Calm s t := by
  unfold userAddr
  refine Ensures.step rfl ?_
  refine Ensures.seq (onMm_calm _ s) ?_
  intro _ t calm
  exact Ensures.pure calm

theorem argaddr_calm (cp : Fin NPROC) (n : Nat) (max : Int) (s : State) :
    Ensures (argaddr link cp n max) s fun _ t => Calm s t := by
  unfold argaddr
  refine Ensures.seq (argraw_ensures cp n s) ?_
  rintro _ t ⟨_, rfl⟩
  refine Ensures.seq (userAddr_calm cp _ t) ?_
  intro _ u first
  exact (onMm_calm _ u).mono fun _ _ second => first.trans second

/-- A free entry has been taken; no slot points to it yet. -/
structure Taken (s t : State) (e : Fin NFD) : Prop where
  free : (s.fds e).type = .FD_CLOSE
  slots : t.slots = s.slots
  unused : ∀ p, (t.proc p).state = .UNUSED ↔ (s.proc p).state = .UNUSED
  type : (t.fds e).type ≠ .FD_CLOSE
  ref : (t.fds e).ref = 1
  others : ∀ e', e' ≠ e → t.fds e' = s.fds e'

theorem Taken.calm {s t u : State} {e : Fin NFD} (taken : Taken s t e) (calm : Calm t u) :
    Taken s u e := by
  have between := calm.between
  refine ⟨taken.free, between.slots_eq.trans taken.slots,
    fun p => (between.unused p).trans (taken.unused p), ?_, ?_, ?_⟩
  all_goals
    rw [calm.fds]
  · exact taken.type
  · exact taken.ref
  · exact taken.others

theorem taken_setFd {s t : State} {e : Fin NFD} {fd : Fd} (free : (s.fds e).type = .FD_CLOSE)
    (slots : t.slots = s.slots)
    (unused : ∀ p, (t.proc p).state = .UNUSED ↔ (s.proc p).state = .UNUSED)
    (others : ∀ e', e' ≠ e → t.fds e' = s.fds e') (type : fd.type ≠ .FD_CLOSE)
    (ref : fd.ref = 1) : Taken s (t.setFd e fd) e := by
  refine ⟨free, slots, unused, ?_, ?_, ?_⟩
  · simpa [State.setFd] using type
  · simpa [State.setFd] using ref
  · intro e' other
    simpa [State.setFd, other] using others e' other

/-- Put an entry into a slot of a process. -/
def State.point (s : State) (p : Fin NPROC) (i : Fin NOFILE) (entry : Option (Fin NFD)) : State :=
  s.setProc p { s.proc p with fds := Function.update (s.proc p).fds i entry }

theorem point_slots (s : State) (p : Fin NPROC) (i : Fin NOFILE) (entry : Option (Fin NFD)) :
    (s.point p i entry).slots = Function.update s.slots (p, i) entry := by
  funext h
  obtain ⟨q, j⟩ := h
  unfold State.slots State.point
  by_cases there : q = p
  · subst there
    by_cases here : j = i
    · subst here
      simp [State.setProc]
    · simp [State.setProc, here]
  · simp [State.setProc, there]

theorem point_unused (s : State) (p : Fin NPROC) (i : Fin NOFILE) (entry : Option (Fin NFD))
    (q : Fin NPROC) :
    ((s.point p i entry).proc q).state = .UNUSED ↔ (s.proc q).state = .UNUSED := by
  unfold State.point
  by_cases here : q = p
  · subst here
    simp [State.setProc]
  · simp [State.setProc, here]

theorem Taken.attached {s t : State} {e : Fin NFD} (taken : Taken s t e) {p : Fin NPROC}
    {i : Fin NOFILE} (owner : (s.proc p).state ≠ .UNUSED) (empty : s.slots (p, i) = none) :
    Attached s (t.point p i (some e)) (p, i) e where
  free := taken.free
  empty := empty
  owner := owner
  slots := by rw [point_slots, taken.slots]
  unused q := (point_unused t p i (some e) q).trans (taken.unused q)
  type := taken.type
  ref := taken.ref
  others := taken.others

/-- Both states change in the same slot. -/
theorem Taken.point {s t : State} {e : Fin NFD} (taken : Taken s t e) (p : Fin NPROC)
    (i : Fin NOFILE) (entry : Option (Fin NFD)) :
    Taken (s.point p i entry) (t.point p i entry) e where
  free := taken.free
  slots := by rw [point_slots, point_slots, taken.slots]
  unused q := by rw [point_unused, point_unused, taken.unused]
  type := taken.type
  ref := taken.ref
  others := taken.others

theorem fdAlloc_ensures (s : State) :
    Ensures fdAlloc s fun entry t => (entry = none ∧ t = s) ∨ ∃ e, entry = some e ∧
      (s.fds e).type = .FD_CLOSE ∧ t = s.setFd e { s.fds e with type := .FD_NONE, ref := 1 } := by
  unfold fdAlloc
  refine Ensures.step (a := freeEntry s) rfl ?_
  cases found : freeEntry s with
  | none => exact Ensures.pure (Or.inl ⟨rfl, rfl⟩)
  | some e =>
      refine Ensures.step rfl ?_
      have free := List.find?_some found
      exact Ensures.pure (Or.inr ⟨e, rfl, by simpa using free, rfl⟩)

theorem freeSlot_some {p : Proc} {i : Fin NOFILE} (found : p.freeSlot = some i) :
    p.fds i = none := by
  have empty := List.find?_some found
  simpa using empty

theorem freeSlot_congr {p q : Proc} (same : q.fds = p.fds) : q.freeSlot = p.freeSlot := by
  unfold Proc.freeSlot
  rw [same]

theorem openInstall_ensures {cp : Fin NPROC} (ip : Fin Fs.NINODE) (arg1 : Int) {s : State}
    (owner : (s.proc cp).state ≠ .UNUSED) (room : (s.proc cp).freeSlot ≠ none) :
    Ensures (openInstall link cp ip arg1) s fun _ t => ∃ i e, Attached s t (cp, i) e := by
  unfold openInstall
  refine Ensures.seq (fdAlloc_ensures s) ?_
  intro entry t allocated
  have proc : t.proc = s.proc := by
    rcases allocated with ⟨_, rfl⟩ | ⟨e, _, _, rfl⟩ <;> rfl
  obtain ⟨i, slot⟩ := Option.ne_none_iff_exists'.mp room
  refine Ensures.step (a := some i) (by rw [← slot, ← proc]; rfl) ?_
  refine Ensures.seq (onFs_calm _ t) ?_
  intro _ u calm
  rcases allocated with ⟨rfl, _⟩ | ⟨e, rfl, free, rfl⟩
  · exact Ensures.fail
  · refine Ensures.step rfl ?_
    refine Ensures.step rfl ?_
    apply Ensures.pure
    have first : Taken s u e :=
      (taken_setFd free rfl (fun _ => Iff.rfl) (fun _ _ => rfl) (by simp) rfl).calm calm
    have opened : Taken s (u.setFd e ((u.fds e).opened ip arg1)) e :=
      taken_setFd free first.slots first.unused first.others (by simp [Fd.opened]) first.ref
    exact ⟨i, e, opened.attached owner (freeSlot_some slot)⟩

theorem sysOpen_ensures {cp : Fin NPROC} {s : State} (owner : (s.proc cp).state ≠ .UNUSED)
    (room : (s.proc cp).freeSlot ≠ none) (closed : Fin NPROC × Fin NOFILE → Prop) :
    Ensures (sysOpen link cp) s fun _ t => Preserves s t closed := by
  unfold sysOpen
  refine Ensures.seq (argaddr_calm cp 0 _ s) ?_
  intro name t first
  refine Ensures.seq (argraw_ensures cp 1 t) ?_
  rintro arg1 t ⟨_, rfl⟩
  refine Ensures.seq (onFs_calm _ t) ?_
  intro found u second
  have calm := first.trans second
  cases found with
  | none => exact Ensures.pure (calm.between.preserves closed)
  | some ip =>
      have same := (calm.proc cp).fds
      refine (openInstall_ensures ip arg1 ?_ ?_).mono ?_
      · exact fun unused => owner ((calm.between.unused cp).mp unused)
      · rw [freeSlot_congr same]
        exact room
      · rintro _ v ⟨i, e, attached⟩
        exact (calm.between.preserves closed).trans (attached.preserves closed)

/-- What `pipe_alloc` has taken: nothing, one entry or two. -/
inductive PipeTaken (s t : State) : Option (Fin NFD) → Option (Fin NFD) → Prop where
  | full (same : t = s) : PipeTaken s t none none
  | half {e : Fin NFD} (taken : Taken s t e) : PipeTaken s t (some e) none
  | both {u : State} {e1 e2 : Fin NFD} (first : Taken s u e1) (second : Taken u t e2) :
      PipeTaken s t (some e1) (some e2)

theorem pipeAlloc_ensures (s : State) :
    Ensures (pipeAlloc link) s fun ends t => t.proc = s.proc ∧ PipeTaken s t ends.1 ends.2 := by
  unfold pipeAlloc
  refine Ensures.seq (fdAlloc_ensures s) ?_
  rintro fd1 t (⟨rfl, rfl⟩ | ⟨e1, rfl, free1, rfl⟩)
  · exact Ensures.pure ⟨rfl, PipeTaken.full rfl⟩
  refine Ensures.seq (fdAlloc_ensures _) ?_
  rintro fd2 t (⟨rfl, rfl⟩ | ⟨e2, rfl, free2, rfl⟩)
  · refine Ensures.pure ⟨rfl, PipeTaken.half ?_⟩
    exact taken_setFd free1 rfl (fun _ => Iff.rfl) (fun _ _ => rfl) (by simp) rfl
  have apart : e2 ≠ e1 := by
    rintro rfl
    simp [State.setFd] at free2
  have free : (s.fds e2).type = .FD_CLOSE := by
    simpa [State.setFd, apart] using free2
  refine Ensures.seq (onMm_ensures _ _) ?_
  rintro page _ ⟨mm, rfl⟩
  refine Ensures.step rfl ?_
  refine Ensures.step rfl ?_
  refine Ensures.pure ⟨rfl, ?_⟩
  refine PipeTaken.both (u := s.setFd e1
    (Fd.pipeEnd { s.fds e1 with type := .FD_NONE, ref := 1 } page false)) ?_ ?_
  · exact taken_setFd free1 rfl (fun _ => Iff.rfl) (fun _ _ => rfl) (by simp [Fd.pipeEnd]) rfl
  · apply taken_setFd
    · simpa [State.setFd, apart] using free
    · rfl
    · exact fun _ => Iff.rfl
    · intro e' other
      by_cases here : e' = e1
      · subst here
        simp [State.setFd, Ne.symm apart]
      · simp [State.setFd, here, other]
    · simp [Fd.pipeEnd]
    · simp [Fd.pipeEnd, State.setFd, apart]

/-- The process has two free slots. -/
def Proc.TwoFree (p : Proc) : Prop := ∃ i j, i ≠ j ∧ p.fds i = none ∧ p.fds j = none

theorem freeSlot_ne_none {p : Proc} {i : Fin NOFILE} (empty : p.fds i = none) :
    p.freeSlot ≠ none := by
  intro full
  have taken := List.find?_eq_none.mp full i (List.mem_finRange i)
  simp [empty] at taken

theorem Proc.TwoFree.slots {p : Proc} (two : p.TwoFree) :
    ∃ i j, i ≠ j ∧ p.freeSlot = some i ∧ p.fds j = none := by
  obtain ⟨i, j, apart, free, free'⟩ := two
  obtain ⟨k, first⟩ := Option.ne_none_iff_exists'.mp (freeSlot_ne_none free)
  by_cases same : k = i
  · exact ⟨k, j, same ▸ apart, first, free'⟩
  · exact ⟨k, i, same, first, free⟩

/-- An empty slot is emptied. -/
theorem point_none_between {s : State} {p : Fin NPROC} {i : Fin NOFILE}
    (empty : s.slots (p, i) = none) : Between s (s.point p i none) := by
  refine ⟨?_, point_unused s p i none, fun e => ⟨_, rfl⟩⟩
  have same : (s.point p i none).slots = s.slots := by
    rw [point_slots, ← empty, Function.update_eq_self]
  intro q
  funext j
  exact congrFun same (q, j)

/-- Both ends are put into slots of their own. -/
theorem PipeTaken.preserves {s t : State} {cp : Fin NPROC} {rfd wfd : Option (Fin NFD)}
    (taken : PipeTaken s t rfd wfd) (owner : (s.proc cp).state ≠ .UNUSED) {i j : Fin NOFILE}
    (empty : s.slots (cp, i) = none) (empty' : (t.point cp i rfd).slots (cp, j) = none)
    (closed : Fin NPROC × Fin NOFILE → Prop) :
    Preserves s ((t.point cp i rfd).point cp j wfd) closed := by
  cases taken with
  | full same =>
      subst same
      exact ((point_none_between empty).trans (point_none_between empty')).preserves closed
  | half taken =>
      exact ((taken.attached owner empty).preserves closed).trans
        ((point_none_between empty').preserves closed)
  | @both _ e1 _ first second =>
      have pointed := second.point cp i (some e1)
      refine ((first.attached owner empty).preserves closed).trans
        ((pointed.attached ?_ ?_).preserves closed)
      · intro unused
        exact owner ((first.unused cp).mp ((point_unused _ cp i _ cp).mp unused))
      · rw [← pointed.slots]
        exact empty'

theorem sysPipe_ensures {cp : Fin NPROC} {s : State} (owner : (s.proc cp).state ≠ .UNUSED)
    (room : (s.proc cp).TwoFree) (closed : Fin NPROC × Fin NOFILE → Prop) :
    Ensures (sysPipe link cp) s fun _ t => Preserves s t closed := by
  unfold sysPipe
  refine Ensures.seq (pipeAlloc_ensures s) ?_
  rintro ⟨rfd, wfd⟩ t ⟨proc, taken⟩
  obtain ⟨i, j, apart, slot, free⟩ := room.slots
  refine Ensures.step (a := some i) (by rw [← slot, ← proc]; rfl) ?_
  refine Ensures.step (t := t.point cp i rfd) rfl ?_
  have still : (t.point cp i rfd).slots (cp, j) = none := by
    rw [point_slots, Function.update_of_ne (by simp [Ne.symm apart])]
    unfold State.slots
    rw [proc]
    exact free
  obtain ⟨k, slot'⟩ := Option.ne_none_iff_exists'.mp (freeSlot_ne_none still)
  refine Ensures.step (a := some k) (by rw [← slot']; rfl) ?_
  refine Ensures.step (t := (t.point cp i rfd).point cp k wfd) rfl ?_
  have empty : (t.point cp i rfd).slots (cp, k) = none := freeSlot_some slot'
  have preserved := taken.preserves owner (freeSlot_some slot) empty closed
  refine Ensures.seq (argraw_ensures cp 0 _) ?_
  rintro uva u ⟨_, rfl⟩
  refine Ensures.seq (userAddr_calm cp _ _) ?_
  intro fdp v first
  refine Ensures.seq (onMm_calm _ v) ?_
  intro _ w second
  refine Ensures.seq (onMm_calm _ w) ?_
  intro _ x third
  apply Ensures.pure
  exact preserved.trans (((first.trans second).trans third).between.preserves closed)

/-- `fd_close` of the entry in a slot, and the slot cleared. -/
theorem closeSlot_ensures {cp : Fin NPROC} {i : Fin NOFILE} {e : Fin NFD} {s : State}
    (held : (s.proc cp).fds i = some e) :
    Ensures (fdClose link e >>= fun _ =>
        modifyProc cp fun p => { p with fds := Function.update p.fds i none }) s
      fun _ t => Detached s t (cp, i) e := by
  refine Ensures.seq (fdClose_ensures e s) ?_
  intro _ t calm
  apply Ensures.modify
  change Detached s (t.point cp i none) (cp, i) e
  have between := calm.between
  refine ⟨held, ?_, ?_, ?_, ?_⟩
  · rw [point_slots, between.slots_eq]
    rfl
  · intro p
    exact (point_unused t cp i none p).trans (between.unused p)
  · change (t.fds e).type = _
    rw [calm.fds]
    simp [State.setFd, Fd.closed]
  · intro e' other
    change t.fds e' = _
    rw [calm.fds]
    simp [State.setFd, other]

theorem sysClose_ensures (cp : Fin NPROC) (s : State) :
    Ensures (sysClose link cp) s fun _ t =>
      ∃ i e, (i.val : Int) = s.register cp 0 ∧ Detached s t (cp, i) e := by
  unfold sysClose
  refine Ensures.seq (argraw_ensures cp 0 s) ?_
  rintro fd t ⟨number, rfl⟩
  unfold fdSlot
  by_cases inside : 0 ≤ fd ∧ fd < NOFILE
  · rw [dif_pos inside]
    refine Ensures.step rfl ?_
    unfold fdEntry
    cases held : (t.proc cp).fds ⟨fd.toNat, by omega⟩ with
    | none =>
        intro _ _ returned
        obtain ⟨_, _, stopped, _⟩ := Act.bind_eq_ok.mp returned
        rw [Act.bind_of_ok (f := procAt cp) rfl, held] at stopped
        cases stopped
    | some e =>
        refine Ensures.step (a := e) (t := t) ?_ ?_
        · rw [Act.bind_of_ok (f := procAt cp) rfl, held]
          rfl
        · rw [← Act.bind_assoc]
          refine Ensures.seq (closeSlot_ensures held) ?_
          intro _ u detached
          apply Ensures.pure
          exact ⟨_, e, by simp only; omega, detached⟩
  · rw [dif_neg inside]
    intro _ _ returned
    obtain ⟨_, _, stopped, _⟩ := Act.bind_eq_ok.mp returned
    cases stopped

/-- The process holds no entry that is counted more than once. -/
def Unshared (s : State) (cp : Fin NPROC) : Prop :=
  ∀ i e, (s.proc cp).fds i = some e → (s.fds e).ref = 1

theorem Detached.unshared {s t : State} {cp : Fin NPROC} {i : Fin NOFILE} {e : Fin NFD}
    (detached : Detached s t (cp, i) e) (sound : Descriptors s) (own : Unshared s cp) :
    Unshared t cp := by
  intro j e' held
  have before := congrFun detached.slots (cp, j)
  change (t.proc cp).fds j = _ at before
  by_cases here : j = i
  · subst here
    rw [before, Function.update_self] at held
    cases held
  · rw [before, Function.update_of_ne (by simp [here])] at held
    have different : e' ≠ e := by
      rintro rfl
      have same := sound.counted.only (own i e' detached.held) detached.held held
      exact here (congrArg Prod.snd same)
    rw [detached.others e' different]
    exact own j e' held

/-- The descriptor loop of `proc_exit`, for a process that shares no entry. -/
theorem exitSlots_ensures {cp : Fin NPROC} (slots : List (Fin NOFILE)) {s : State}
    (sound : Descriptors s) (own : Unshared s cp) :
    Ensures (exitSlots link cp slots) s fun _ t => Preserves s t fun h => h.1 = cp := by
  induction slots generalizing s with
  | nil => exact Ensures.pure ((Between.refl s).preserves _)
  | cons i rest ih =>
      unfold exitSlots
      refine Ensures.seq (m := fun _ t => Descriptors t ∧ Unshared t cp ∧
        Preserves s t fun h => h.1 = cp) ?_ ?_
      · unfold exitSlot
        refine Ensures.step (a := s.proc cp) rfl ?_
        cases held : (s.proc cp).fds i with
        | none => exact Ensures.pure ⟨sound, own, (Between.refl s).preserves _⟩
        | some e =>
            refine (closeSlot_ensures held).mono ?_
            intro _ t detached
            have preserved : Preserves s t fun h => h.1 = cp :=
              detached.preserves (own i e held) rfl
            exact ⟨(preserved sound).1, detached.unshared sound own, preserved⟩
      · rintro _ t ⟨sound', own', first⟩
        exact (ih sound' own').mono fun _ _ second => first.trans second

theorem procExit_descriptors {cp : Fin NPROC} {s : State} (alive : (s.proc cp).Alive)
    (sound : Descriptors s) (own : Unshared s cp) :
    Ensures (procExit link cp 0) s fun _ t => Preserves s t fun h => h.1 = cp := by
  unfold procExit
  refine Ensures.step (t := s.setProc cp { s.proc cp with state := .ZOMBIE }) rfl ?_
  have marked : Between s (s.setProc cp { s.proc cp with state := .ZOMBIE }) := by
    refine ⟨?_, ?_, fun e => ⟨_, rfl⟩⟩
    all_goals
      intro p
      by_cases here : p = cp
      · subst here
        simp [State.setProc, alive.1]
      · simp [State.setProc, here]
  have own' : Unshared (s.setProc cp { s.proc cp with state := .ZOMBIE }) cp := by
    intro i e held
    rw [marked.slots] at held
    exact own i e held
  rw [List.drop_zero]
  refine Ensures.seq (exitSlots_ensures _ (marked.descriptors sound) own') ?_
  intro _ t closed
  refine Ensures.step rfl ?_
  refine Ensures.seq (wakeParents_calm _ _ t) ?_
  intro _ u woken
  refine (abandonChildren_ensures cp _ u).mono ?_
  rintro _ v ⟨renamed, fds, _, _⟩
  have last : Between u v := by
    refine ⟨?_, ?_, fun e => ⟨(u.fds e).off, by rw [fds]⟩⟩
    all_goals
      intro p
      obtain ⟨pid, changed⟩ := renamed p
      rw [changed]
  exact (marked.preserves _).trans (closed.trans ((woken.between.trans last).preserves _))

/-- The operations on descriptors. -/
inductive FdOp where
  | opens
  | pipes
  | closes
  | forks
  | exits

/-- The operation, called by `cp`, returns in the state `t`. -/
def FdOp.Runs (link : Link) (cp : Fin NPROC) (s t : State) : FdOp → Prop
  | .opens => ∃ r, sysOpen link cp s = .ok (r, t)
  | .pipes => ∃ r, sysPipe link cp s = .ok (r, t)
  | .closes => ∃ r, sysClose link cp s = .ok (r, t)
  | .forks => ∃ r, sysFork link cp s = .ok (r, t)
  | .exits => procExit link cp 0 s = .ok ((), t)

/-- What is opened finds a slot, and what is closed is held by nobody else. -/
def FdOp.Orderly (s : State) (cp : Fin NPROC) : FdOp → Prop
  | .opens => (s.proc cp).freeSlot ≠ none
  | .pipes => (s.proc cp).TwoFree
  | .closes => ∀ i e, (i.val : Int) = s.register cp 0 → (s.proc cp).fds i = some e →
      (s.fds e).ref = 1
  | .forks => True
  | .exits => Unshared s cp

/-- The operation closes the descriptor `h`. -/
def FdOp.Closes (h : Fin NPROC × Fin NOFILE) (s : State) (cp : Fin NPROC) : FdOp → Prop
  | .closes => h.1 = cp ∧ (h.2.val : Int) = s.register cp 0
  | .exits => h.1 = cp
  | _ => False

/-- An operation by some process, or anything that leaves the descriptors alone:
the other calls, the user programs, the scheduler. -/
def FdMove (link : Link) (allowed : State → Fin NPROC → FdOp → Prop) (s t : State) : Prop :=
  Between s t ∨ ∃ cp op, (s.proc cp).Alive ∧ allowed s cp op ∧ op.Runs link cp s t

/-- A state that `userinit` leaves when it finds no process and no open entry. -/
def FdStart (link : Link) (s : State) : Prop :=
  ∃ u, (∀ p, (u.proc p).state = .UNUSED ∧ ∀ i, (u.proc p).fds i = none) ∧
    (∀ e, (u.fds e).type = .FD_CLOSE) ∧ userinit link u = .ok ((), s)

theorem FdStart.descriptors {s : State} (start : FdStart link s) : Descriptors s := by
  obtain ⟨u, blank, closed, returned⟩ := start
  unfold userinit at returned
  obtain ⟨np, v, allocated, finished⟩ := Act.bind_eq_ok.mp returned
  have alloc := allocproc_ensures u np v allocated
  obtain ⟨pagetable, tf, proc⟩ := alloc.proc
  cases finished
  have empty : ∀ p i, ((v.setProc np { v.proc np with
      ctx := Function.update (Function.update (v.proc np).ctx ctxSp ((v.proc np).kstack + PGSIZE))
        ctxX30 link.forkret, state := .RUNNABLE }).proc p).fds i = none := by
    intro p i
    by_cases here : p = np
    · subst here
      simp [State.setProc, proc, (blank p).2]
    · simp [State.setProc, proc, here, (blank p).2]
  refine ⟨⟨?_, ?_⟩, fun p _ i => empty p i⟩
  · intro e live
    change (v.fds e).type ≠ _ at live
    rw [alloc.fds] at live
    exact absurd (closed e) live
  · intro e
    change (v.fds e).type ≠ _ ↔ _
    rw [alloc.fds]
    refine iff_of_false (not_not.mpr (closed e)) ?_
    rintro ⟨⟨p, i⟩, held⟩
    have none := empty p i
    unfold State.slots at held
    rw [none] at held
    cases held

/-- One operation of an orderly run. -/
theorem FdOp.preserves {cp : Fin NPROC} {op : FdOp} {s t : State} (sound : Descriptors s)
    (alive : (s.proc cp).Alive) (orderly : op.Orderly s cp) (runs : op.Runs link cp s t) :
    Preserves s t fun h => op.Closes h s cp := by
  cases op with
  | opens =>
      obtain ⟨r, returned⟩ := runs
      exact sysOpen_ensures alive.1 orderly _ r t returned
  | pipes =>
      obtain ⟨r, returned⟩ := runs
      exact sysPipe_ensures alive.1 orderly _ r t returned
  | closes =>
      obtain ⟨r, returned⟩ := runs
      obtain ⟨i, e, number, detached⟩ := sysClose_ensures cp s r t returned
      exact detached.preserves (orderly i e number detached.held) ⟨rfl, number⟩
  | forks =>
      obtain ⟨r, returned⟩ := runs
      obtain ⟨np, forked⟩ := sysFork_ensures alive.1 r t returned
      exact fun sound => ⟨forked.descriptors sound, fun h _ => forked.kept sound h⟩
  | exits => exact procExit_descriptors alive sound orderly () t runs

theorem FdMove.preserves {s t : State} {h : Fin NPROC × Fin NOFILE} (sound : Descriptors s)
    (move : FdMove link (fun s cp op => op.Orderly s cp ∧ ¬op.Closes h s cp) s t) :
    Descriptors t ∧ Kept s t h := by
  rcases move with between | ⟨cp, op, alive, ⟨orderly, stays⟩, runs⟩
  · exact ⟨between.descriptors sound, between.kept h⟩
  · obtain ⟨sound', kept⟩ := FdOp.preserves sound alive orderly runs sound
    exact ⟨sound', kept h stays⟩

/-- The invariant of orderly runs. -/
theorem descriptors_invariant {n : Nat} {s : State}
    (run : ReachIn (FdStart link) (FdMove link fun s cp op => op.Orderly s cp) n s) :
    Descriptors s := by
  refine run.invariant (fun s start => start.descriptors) ?_
  intro s t sound move
  rcases move with between | ⟨cp, op, alive, orderly, runs⟩
  · exact between.descriptors sound
  · exact (FdOp.preserves sound alive orderly runs sound).1

end

/-- In an orderly run the counters are right in every state, `fd_alloc` takes
entries nobody points to, and a descriptor refers to the same file, in the same
mode, until it is closed. -/
theorem descriptor_counts_sound {link : Link} {n : Nat} {s : State}
    (run : ReachIn (FdStart link) (FdMove link fun s cp op => op.Orderly s cp) n s) :
    (∀ e, ((s.fds e).type ≠ .FD_CLOSE → (s.fds e).ref = (holders s.slots e).card) ∧
      ((s.fds e).type = .FD_CLOSE ↔ ∀ p i, (s.proc p).fds i ≠ some e)) ∧
    (∀ e, freeEntry s = some e → ∀ p i, (s.proc p).fds i ≠ some e) ∧
    ∀ h m t, ReachIn (fun u => u = s)
        (FdMove link fun s cp op => op.Orderly s cp ∧ ¬op.Closes h s cp) m t → Kept s t h := by
  have sound := descriptors_invariant run
  have closed : ∀ e, (s.fds e).type = .FD_CLOSE ↔ ∀ p i, (s.proc p).fds i ≠ some e := by
    intro e
    rw [← not_iff_not]
    refine (sound.counted.live e).trans ?_
    simp [State.slots]
  refine ⟨fun e => ⟨sound.counted.count e, closed e⟩, ?_, ?_⟩
  · intro e found
    apply (closed e).mp
    have free := List.find?_some found
    simpa using free
  · intro h m t later
    refine (later.invariant (h := fun u => Descriptors u ∧ Kept s u h) ?_ ?_).2
    · rintro _ rfl
      exact ⟨sound, fun e held => ⟨held, Fd.SameFile.refl _⟩⟩
    · rintro u v ⟨sound', kept⟩ move
      obtain ⟨sound'', kept'⟩ := move.preserves sound'
      exact ⟨sound'', kept.trans kept'⟩

/-- A page for the user at `PGSIZE`, as `kexec` maps the stack of a program
without segments, and the user's first argument. -/
def smallUserPage (cp : Fin NPROC) : Act Fault State Unit := do
  let p ← procAt cp
  onMm do
    let page ← kalloc smallLink
    let _ ← mappages smallLink p.pagetable PGSIZE page PGSIZE PTE_AP_RW
    store64 smallLink p.tf PGSIZE
  modifyProc cp fun p => { p with sz := PGSIZE }

/-- `init` after `userinit` on 20 pages, with a page of its own. -/
def smallPipeStart : State :=
  (userinit smallLink).after
    (State.loaded (Fs.State.loaded fun _ => Fs.Block.zero) (smallMm 20))

def smallPipeUser : State := (smallUserPage initSlot).after smallPipeStart

/-- It has made a pipe. -/
def smallPiped : State := (sysPipe smallLink initSlot).after smallPipeUser

/-- It has forked; its next argument is descriptor 0. -/
def smallPipeForked : State := (sysFork smallLink initSlot).after smallPiped

def smallPipeArgument : State :=
  (onMm (store64 smallLink (smallPipeForked.proc initSlot).tf 0)).after smallPipeForked

theorem smallPipeStart_start : FdStart smallLink smallPipeStart := by
  obtain ⟨_, returned⟩ := returns_after (userinit smallLink)
    (State.loaded (Fs.State.loaded fun _ => Fs.Block.zero) (smallMm 20)) (by decide +kernel)
  exact ⟨_, fun _ => ⟨rfl, fun _ => rfl⟩, fun _ => rfl, returned⟩

theorem smallUserPage_between (cp : Fin NPROC) (s : State) :
    Ensures (smallUserPage cp) s fun _ t => Between s t := by
  unfold smallUserPage
  refine Ensures.step rfl ?_
  refine Ensures.seq (onMm_calm _ s) ?_
  intro _ t calm
  apply Ensures.modify
  refine calm.between.trans ⟨?_, ?_, fun e => ⟨_, rfl⟩⟩
  all_goals
    intro p
    by_cases here : p = cp
    · subst here
      simp [State.setProc]
    · simp [State.setProc, here]

theorem smallPipe_run :
    (smallUserPage initSlot).returns smallPipeStart = true ∧
    (smallPipeUser.proc initSlot).Alive ∧
    (sysPipe smallLink initSlot).returns smallPipeUser = true ∧
    (smallPiped.proc initSlot).Alive ∧
    (sysFork smallLink initSlot).returns smallPiped = true := by
  decide +kernel

theorem smallPipeForked_reached (allowed : State → Fin NPROC → FdOp → Prop)
    (pipes : allowed smallPipeUser initSlot .pipes) (forks : allowed smallPiped initSlot .forks) :
    ReachIn (FdStart smallLink) (FdMove smallLink allowed) 3 smallPipeForked := by
  obtain ⟨maps, alive, pipe, alive', fork⟩ := smallPipe_run
  obtain ⟨_, mapped⟩ := returns_after _ smallPipeStart maps
  obtain ⟨piped, pipeRun⟩ := returns_after _ smallPipeUser pipe
  obtain ⟨forked, forkRun⟩ := returns_after _ smallPiped fork
  have user : ReachIn (FdStart smallLink) (FdMove smallLink allowed) 1 smallPipeUser :=
    ReachIn.next (ReachIn.start smallPipeStart_start)
      (Or.inl (smallUserPage_between initSlot _ _ _ mapped))
  have second : ReachIn (FdStart smallLink) (FdMove smallLink allowed) 2 smallPiped :=
    ReachIn.next user (Or.inr ⟨initSlot, .pipes, alive, pipes, piped, pipeRun⟩)
  exact ReachIn.next second (Or.inr ⟨initSlot, .forks, alive', forks, forked, forkRun⟩)

/-- What the parent's close of its read end leaves. -/
theorem smallClose_run :
    (onMm (store64 smallLink (smallPipeForked.proc initSlot).tf 0)).returns
      smallPipeForked = true ∧
    (smallPipeForked.fds 0).ref = 2 ∧ (smallPipeForked.fds 0).type ≠ .FD_CLOSE ∧
    (smallPipeArgument.proc initSlot).Alive ∧
    (sysClose smallLink initSlot).returns smallPipeArgument = true ∧
    (((sysClose smallLink initSlot).after smallPipeArgument).fds 0).type = .FD_CLOSE ∧
    freeEntry ((sysClose smallLink initSlot).after smallPipeArgument) = some 0 ∧
    (((sysClose smallLink initSlot).after smallPipeArgument).proc 1).fds 0 = some 0 := by
  decide +kernel

/-- Both ends of the pipe are held twice after the fork. -/
theorem descriptor_counts_sound_small :
    (smallPipeForked.fds 0).ref = 2 ∧ (holders smallPipeForked.slots 0).card = 2 := by
  have room : FdOp.Orderly smallPipeUser initSlot .pipes :=
    ⟨0, 1, by decide, by decide +kernel, by decide +kernel⟩
  have counts := (descriptor_counts_sound (smallPipeForked_reached
    (fun s cp op => op.Orderly s cp) room trivial)).1 0
  obtain ⟨_, two, allocated, _⟩ := smallClose_run
  have count := counts.1 allocated
  exact ⟨two, by omega⟩

/-- The parent closes its read end: the entry counts as free, and the child still
points to it. -/
theorem close_frees_shared_entry :
    ∃ n s, ReachIn (FdStart smallLink) (FdMove smallLink fun _ _ _ => True) n s ∧
      (s.fds 0).type = .FD_CLOSE ∧ freeEntry s = some 0 ∧ (s.proc 1).fds 0 = some 0 := by
  obtain ⟨stores, _, _, alive, closes, free, next, held⟩ := smallClose_run
  obtain ⟨_, stored⟩ := returns_after _ smallPipeForked stores
  obtain ⟨result, closed⟩ := returns_after _ smallPipeArgument closes
  have forked := smallPipeForked_reached (fun _ _ _ => True) trivial trivial
  have argument : ReachIn (FdStart smallLink) (FdMove smallLink fun _ _ _ => True) 4
      smallPipeArgument :=
    ReachIn.next forked (Or.inl (onMm_calm _ _ _ _ stored).between)
  exact ⟨_, _, ReachIn.next argument
    (Or.inr ⟨initSlot, .closes, alive, trivial, result, closed⟩), free, next, held⟩

end Gcgos.Kernel
