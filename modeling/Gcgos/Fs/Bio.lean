import Gcgos.Fault
import Gcgos.Lib.Act
import Mathlib.Data.Fintype.Card

/-!
# Buffers and the SD card

`kernel/bio.c`. There is no cache: `bread` takes the first buffer whose
`B_BUSY` flag is clear, reads the sector into it and hands it out; `bwrite`
writes a buffer to a sector; `brelse` clears the flag. The device number is
not used below this level. `sd_readblock` may fail and then leaves the bytes
the buffer had, and its result is ignored; the pattern of failures still to
come is part of the card's state.

Two facts describe a call that returns: what the card holds afterwards, and
which buffers are busy. The bytes left in a free buffer are never read before
`bread` replaces them, unless a read fails.
-/

set_option autoImplicit false

namespace Gcgos.Fs

open Act

abbrev NBUF : Nat := 10
abbrev B_BUSY : UInt32 := 1

/-- `struct buf`. `flags` starts as zero and only `B_BUSY` is ever set or
cleared in it, so it holds one of two words. -/
structure Buf where
  busy : Bool
  data : Block
deriving DecidableEq

def Buf.flags (buf : Buf) : UInt32 := if buf.busy then B_BUSY else 0

/-- The card: its sectors, and for the coming reads whether each fails. Past
the end of the list every read succeeds. -/
structure Sd where
  block : Nat → Block
  faults : List Bool

structure Bio where
  sd : Sd
  buf : Fin NBUF → Buf

namespace Bio

def busy (s : Bio) : Fin NBUF → Bool := fun i => (s.buf i).busy

def setBuf (s : Bio) (i : Fin NBUF) (buf : Buf) : Bio :=
  { s with buf := Function.update s.buf i buf }

def writeSector (s : Bio) (sector : Nat) (data : Block) : Bio :=
  { s with sd := { s.sd with block := Function.update s.sd.block sector data } }

@[simp] theorem setBuf_sd (s : Bio) (i : Fin NBUF) (buf : Buf) :
    (s.setBuf i buf).sd = s.sd := rfl

@[simp] theorem setBuf_buf (s : Bio) (i : Fin NBUF) (buf : Buf) :
    (s.setBuf i buf).buf = Function.update s.buf i buf := rfl

@[simp] theorem setBuf_busy (s : Bio) (i : Fin NBUF) (buf : Buf) :
    (s.setBuf i buf).busy = Function.update s.busy i buf.busy := by
  funext j
  by_cases same : j = i
  · subst same
    simp [busy]
  · simp [busy, same]

@[simp] theorem writeSector_busy (s : Bio) (sector : Nat) (data : Block) :
    (s.writeSector sector data).busy = s.busy := rfl

@[simp] theorem writeSector_buf (s : Bio) (sector : Nat) (data : Block) :
    (s.writeSector sector data).buf = s.buf := rfl

@[simp] theorem writeSector_block (s : Bio) (sector : Nat) (data : Block) :
    (s.writeSector sector data).sd.block = Function.update s.sd.block sector data := rfl

@[simp] theorem writeSector_faults (s : Bio) (sector : Nat) (data : Block) :
    (s.writeSector sector data).sd.faults = s.sd.faults := rfl

end Bio

def getblk : Act Fault Bio (Fin NBUF) := fun s =>
  match (List.finRange NBUF).find? fun i => !(s.buf i).busy with
  | some i => .ok (i, s.setBuf i ⟨true, (s.buf i).data⟩)
  | none => .error .spin

/-- `sd_readblock(sector, b->data, 1)`. -/
def sdReadblock (sector : Nat) (b : Fin NBUF) : Act Fault Bio Unit :=
  Act.modify fun s =>
    match s.sd.faults with
    | true :: rest => { s with sd := { s.sd with faults := rest } }
    | _ :: rest =>
        { s.setBuf b ⟨(s.buf b).busy, s.sd.block sector⟩ with
          sd := { s.sd with faults := rest } }
    | [] => s.setBuf b ⟨(s.buf b).busy, s.sd.block sector⟩

def bread (_dev : UInt32) (sector : Nat) : Act Fault Bio (Fin NBUF) := do
  let b ← getblk
  sdReadblock sector b
  pure b

/-- `b->data`. -/
def bufData (b : Fin NBUF) : Act Fault Bio Block :=
  Act.reads fun s => (s.buf b).data

/-- Replace `b->data`. -/
def setBufData (b : Fin NBUF) (data : Block) : Act Fault Bio Unit :=
  Act.modify fun s => s.setBuf b ⟨(s.buf b).busy, data⟩

def bwrite (_dev : UInt32) (b : Fin NBUF) (sector : Nat) : Act Fault Bio Unit :=
  Act.modify fun s => s.writeSector sector (s.buf b).data

def brelse (b : Fin NBUF) : Act Fault Bio Unit :=
  Act.modify fun s => s.setBuf b ⟨false, (s.buf b).data⟩

/-- The tail of every read-modify-write of `fs.c`: the changed bytes of a held
buffer go to a sector with `bwrite`, and `brelse` gives the buffer back. -/
def bstore (dev : UInt32) (b : Fin NBUF) (data : Block) (sector : Nat) :
    Act Fault Bio Unit := do
  setBufData b data
  bwrite dev b sector
  brelse b

namespace Bio

/-- The number of buffers that are not busy. -/
def freeCount (s : Bio) : Nat := (Finset.univ.filter fun i => s.busy i = false).card

/-- No read fails from here on, and `room` buffers are free. -/
structure Ready (s : Bio) (room : Nat) : Prop where
  reads : s.sd.faults = []
  free : room ≤ s.freeCount

theorem freeCount_congr {s t : Bio} (same : t.busy = s.busy) :
    t.freeCount = s.freeCount := by
  simp only [freeCount, same]

/-- Taking a free buffer leaves one fewer. -/
theorem freeCount_hold {s t : Bio} {i : Fin NBUF} (free : s.busy i = false)
    (held : t.busy = Function.update s.busy i true) :
    t.freeCount + 1 = s.freeCount := by
  have taken : (Finset.univ.filter fun j => t.busy j = false) =
      (Finset.univ.filter fun j => s.busy j = false).erase i := by
    ext j
    by_cases same : j = i
    · subst same
      simp [held]
    · simp [held, same]
  have member : i ∈ Finset.univ.filter fun j => s.busy j = false := by simp [free]
  have positive := Finset.card_pos.mpr ⟨i, member⟩
  unfold freeCount
  rw [taken, Finset.card_erase_of_mem member]
  omega

/-- From `s` to `t` the buffer `i`, free in `s`, was taken and holds `data`;
the card is as it was. -/
structure Held (s t : Bio) (i : Fin NBUF) (data : Block) : Prop where
  free : s.busy i = false
  busy : t.busy = Function.update s.busy i true
  data : (t.buf i).data = data
  sd : t.sd = s.sd

/-- From `s` to `t` no buffer changed hands, and the card's sectors went from
those of `s` to `disk`. -/
structure Settled (s t : Bio) (disk : Nat → Block) : Prop where
  busy : t.busy = s.busy
  disk : t.sd.block = disk
  faults : t.sd.faults = s.sd.faults

theorem Settled.refl (s : Bio) : Settled s s s.sd.block := ⟨rfl, rfl, rfl⟩

theorem Settled.trans {s t u : Bio} {first second : Nat → Block}
    (left : Settled s t first) (right : Settled t u second) : Settled s u second :=
  ⟨right.busy.trans left.busy, right.disk, right.faults.trans left.faults⟩

theorem Settled.ready {s t : Bio} {disk : Nat → Block} {room : Nat}
    (settled : Settled s t disk) (ready : s.Ready room) : t.Ready room :=
  ⟨settled.faults.trans ready.reads,
    (freeCount_congr settled.busy).symm ▸ ready.free⟩

theorem Held.ready {s t : Bio} {i : Fin NBUF} {data : Block} {room : Nat}
    (held : Held s t i data) (ready : s.Ready (room + 1)) : t.Ready room := by
  constructor
  · rw [held.sd]
    exact ready.reads
  · have count := freeCount_hold held.free held.busy
    have bound := ready.free
    omega

theorem Ready.mono {s : Bio} {room smaller : Nat} (ready : s.Ready room)
    (le : smaller ≤ room) : s.Ready smaller :=
  ⟨ready.reads, le.trans ready.free⟩

end Bio

open Bio

theorem getblk_yields {s : Bio} (free : 1 ≤ s.freeCount) :
    Yields getblk s fun i t =>
      s.busy i = false ∧ t = s.setBuf i ⟨true, (s.buf i).data⟩ := by
  obtain ⟨i, member⟩ := Finset.card_pos.mp free
  have clear : s.busy i = false := by simpa using member
  cases found : (List.finRange NBUF).find? (fun i => !(s.buf i).busy) with
  | none =>
      have all := List.find?_eq_none.mp found i (List.mem_finRange i)
      simp [Bio.busy] at clear
      simp [clear] at all
  | some j =>
      have first : (!(s.buf j).busy) = true := by
        simpa using List.find?_some found
      refine ⟨j, _, ?_, ?_, rfl⟩
      · simp [getblk, found]
      · simpa [Bio.busy] using first

theorem sdReadblock_run {s : Bio} (sector : Nat) (b : Fin NBUF)
    (reads : s.sd.faults = []) :
    sdReadblock sector b s =
      .ok ((), s.setBuf b ⟨(s.buf b).busy, s.sd.block sector⟩) := by
  simp [sdReadblock, reads]

theorem bread_yields {s : Bio} (dev : UInt32) (sector : Nat) (ready : s.Ready 1) :
    Yields (bread dev sector) s fun i t => Held s t i (s.sd.block sector) := by
  refine Yields.seq (getblk_yields ready.free) ?_
  rintro i t ⟨clear, rfl⟩
  have read := sdReadblock_run (s := s.setBuf i ⟨true, (s.buf i).data⟩) sector i
    ready.reads
  refine ⟨i, _, Act.bind_of_ok read, clear, ?_, ?_, ?_⟩ <;> simp

/-- `getblk` waits until a buffer is free. -/
theorem getblk_ensures (s : Bio) :
    Ensures getblk s fun i t => s.busy i = false ∧ t = s.setBuf i ⟨true, (s.buf i).data⟩ := by
  intro i t returned
  rcases Nat.eq_zero_or_pos s.freeCount with full | room
  · have busy : (List.finRange NBUF).find? (fun i => !(s.buf i).busy) = none := by
      refine List.find?_eq_none.mpr fun i _ clear => ?_
      have free : i ∈ Finset.univ.filter fun i => s.busy i = false :=
        Finset.mem_filter.mpr ⟨Finset.mem_univ i, by simpa [Bio.busy] using clear⟩
      exact absurd (Finset.card_pos.mpr ⟨i, free⟩) (by unfold Bio.freeCount at full; omega)
    unfold getblk at returned
    rw [busy] at returned
    cases returned
  · exact (getblk_yields room).ensures i t returned

theorem bread_ensures {s : Bio} (reads : s.sd.faults = []) (dev : UInt32) (sector : Nat) :
    Ensures (bread dev sector) s fun i t => Held s t i (s.sd.block sector) := by
  refine Ensures.seq (getblk_ensures s) ?_
  rintro i t ⟨clear, rfl⟩
  have read := sdReadblock_run (s := s.setBuf i ⟨true, (s.buf i).data⟩) sector i reads
  refine Ensures.step read (Ensures.pure ⟨clear, ?_, ?_, ?_⟩) <;> simp

/-- Releasing the held buffer puts every flag back. -/
theorem brelse_yields {s t : Bio} {i : Fin NBUF} (free : s.busy i = false)
    (held : t.busy = Function.update s.busy i true) (faults : t.sd.faults = s.sd.faults) :
    Yields (brelse i) t fun _ u => Settled s u t.sd.block := by
  refine ⟨(), _, rfl, ?_, rfl, faults⟩
  simp [held, ← free]

theorem bufData_yields {s t : Bio} {i : Fin NBUF} {data : Block} (held : Held s t i data) :
    Yields (bufData i) t fun value u => value = data ∧ u = t :=
  ⟨_, t, rfl, held.data, rfl⟩

theorem setBufData_yields {s t : Bio} {i : Fin NBUF} {old : Block} (held : Held s t i old)
    (data : Block) : Yields (setBufData i data) t fun _ u => Held s u i data := by
  refine ⟨(), _, rfl, held.free, ?_, ?_, held.sd⟩
  · have flag : (t.buf i).busy = true := by
      have := congrFun held.busy i
      simpa [busy] using this
    simp [held.busy, flag]
  · simp

/-- Writing a held buffer out and releasing it changes one sector. -/
theorem bwrite_brelse_yields {s t : Bio} {i : Fin NBUF} {data : Block}
    (held : Held s t i data) (dev : UInt32) (sector : Nat) :
    Yields (bwrite dev i sector >>= fun _ => brelse i) t fun _ u =>
      Settled s u (Function.update s.sd.block sector data) := by
  refine ⟨(), _, rfl, ?_, ?_, ?_⟩
  · simp [held.busy, ← held.free]
  · simp [held.sd, held.data]
  · simp [held.sd]

theorem bstore_yields {s t : Bio} {i : Fin NBUF} {old : Block} (held : Held s t i old)
    (dev : UInt32) (data : Block) (sector : Nat) :
    Yields (bstore dev i data sector) t fun _ u =>
      Settled s u (Function.update s.sd.block sector data) := by
  refine Yields.seq (setBufData_yields held data) ?_
  intro _ u heldNew
  exact bwrite_brelse_yields heldNew dev sector

end Gcgos.Fs
