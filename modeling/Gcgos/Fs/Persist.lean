import Gcgos.Fs.Orderly

/-!
# What survives eviction

A file is written while its inode sits in the table, its slot is given up and
used for another inode, and `iget` loads the file again. `iupdate` writes the
head of the dinode and not its block numbers, and nothing else writes them, so
the inode that is loaded is the one that was evicted exactly when no write had
to allocate a block.
-/

set_option autoImplicit false

namespace Gcgos.Fs

open Act Bio ByteMap

/-- A sequence of writes to one slot. -/
def writeAll (i : Fin NINODE) : List (List UInt8 × Nat) → Act Fault State Unit
  | [] => pure ()
  | (src, off) :: rest => do
      let _ ← writei i src off
      writeAll i rest

/-- File block `lbn` is one of those the writes go to. -/
def TouchedBy (calls : List (List UInt8 × Nat)) (lbn : Nat) : Prop :=
  ∃ call ∈ calls, Touched call.2 call.1 lbn

/-- The block numbers on the disk are those of the start after every sequence
of writes, and the rest of the dinode is what the table has. -/
theorem writeAll_effect {s : State} (i : Fin NINODE) (calls : List (List UInt8 × Nat))
    (addrs : Addrs) (orderly : Orderly s) (held : 0 < (s.inode i).count)
    (file : (s.inode i).type = T_FILE) (direct : ∀ call ∈ calls, InDirect call.2 call.1)
    (copy : DiskCopy s i addrs) :
    Ensures (writeAll i calls) s fun _ t =>
      Orderly t ∧ superOf t.disk = superOf s.disk ∧ (t.inode i).inum = (s.inode i).inum ∧
        0 < (t.inode i).count ∧ (t.inode i).type = T_FILE ∧ DiskCopy t i addrs ∧
        Grown (TouchedBy calls) (s.inode i).addrs (t.inode i).addrs := by
  induction calls generalizing s with
  | nil =>
      apply Ensures.pure
      refine ⟨orderly, rfl, rfl, held, file, copy, Grown.refl _ ?_⟩
      rintro lbn ⟨call, member, -⟩
      cases member
  | cons call calls ih =>
      obtain ⟨src, off⟩ := call
      unfold writeAll
      refine Ensures.seq (writei_effect i src off orderly held file
        (direct _ List.mem_cons_self)) ?_
      intro _ t effect
      have copyT : DiskCopy t i addrs := by
        have now := effect.copy
        rw [copy] at now
        exact now
      refine (ih effect.step.orderly (by rw [effect.count]; exact held)
        (effect.type.trans file) (fun call member => direct call (List.mem_cons_of_mem _ member))
        copyT).mono ?_
      rintro _ u ⟨orderlyU, super, inum, heldU, fileU, copyU, grown⟩
      refine ⟨orderlyU, super.trans effect.step.disk.super, inum.trans effect.inum, heldU,
        fileU, copyU, (effect.grown.trans grown).congr ?_⟩
      intro lbn
      simp [TouchedBy]

/-- Slot `i` of `s` has just been loaded by `iget` or made by `mknod`. -/
inductive Obtained (i : Fin NINODE) (s : State) : Prop where
  | iget (before : State) (inum : UInt32) (orderly : Orderly before)
      (inArea : inum.toNat < (superOf before.disk).ninodes.toNat)
      (missing : findSlot before rootdev inum = none)
      (returned : iget rootdev inum before = .ok (i, s)) : Obtained i s
  | mknod (before : State) (dp : Fin NINODE) (path : List UInt8) (type major minor : UInt16)
      (orderly : Orderly before) (used : Used before) (ready : MknodReady before dp)
      (returned : mknod dp path type major minor before = .ok (i, s)) : Obtained i s

theorem Obtained.synced {i : Fin NINODE} {s : State} (obtained : Obtained i s) :
    Orderly s ∧ 0 < (s.inode i).count ∧ Synced s i := by
  cases obtained with
  | iget before inum orderly inArea missing returned =>
      obtain ⟨step, handed, -, -, fresh, load⟩ := orderly.iget inum inArea i s returned
      exact ⟨step.orderly, handed.held, load (fresh missing)⟩
  | mknod before dp path type major minor orderly used ready returned =>
      have effect := mknod_effect dp path type major minor orderly used ready i s returned
      exact ⟨effect.step.orderly, by rw [effect.count]; exact Int.one_pos, effect.synced⟩

/-- The calls that other processes, and the owner of a file after its last
write, may make. -/
inductive FileOp where
  | iget (inum : UInt32)
  | iput (slot : Fin NINODE)
  | ilock (slot : Fin NINODE)
  | iunlock (slot : Fin NINODE)
  | writei (call : WriteCall)
  | mknod (dp : Fin NINODE) (path : List UInt8) (type major minor : UInt16)

namespace FileOp

def run : FileOp → Act Fault State Unit
  | iget inum => do
      let _ ← Fs.iget rootdev inum
      pure ()
  | iput slot => Fs.iput slot
  | ilock slot => Fs.ilock slot
  | iunlock slot => Fs.iunlock slot
  | writei call => do
      let _ ← call.run
      pure ()
  | mknod dp path type major minor => do
      let _ ← Fs.mknod dp path type major minor
      pure ()

/-- The call does not write the inode `n`, and meets what its caller sees to:
inode numbers are inside the inode area, slots are held, and writes stay below
the indirect blocks. -/
def Allowed (n : Nat) (s : State) : FileOp → Prop
  | iget inum => inum.toNat < (superOf s.disk).ninodes.toNat
  | iput slot => 0 < (s.inode slot).count
  | ilock _ => True
  | iunlock _ => True
  | writei call => call.Valid s ∧ InDirect call.off call.src ∧
      (s.inode call.slot).inum.toNat ≠ n
  | mknod dp _ _ _ _ => MknodReady s dp ∧ Used s ∧ (s.inode dp).inum.toNat ≠ n

def Step (n : Nat) (s t : State) : Prop := ∃ op : FileOp, op.Allowed n s ∧ op.run s = .ok ((), t)

/-- One call keeps order and the dinode of `n`. -/
theorem step_keeps {n : Nat} {s t : State} (orderly : Orderly s)
    (inArea : n < (superOf s.disk).ninodes.toNat) (inUse : (dinodeAt s.disk n).type ≠ 0)
    (step : Step n s t) :
    Orderly t ∧ superOf t.disk = superOf s.disk ∧ dinodeAt t.disk n = dinodeAt s.disk n := by
  obtain ⟨op, allowed, returned⟩ := step
  have conclude {changed : Nat → Prop} (kept : OrderlyStep changed s t) (away : ¬changed n) :
      Orderly t ∧ superOf t.disk = superOf s.disk ∧ dinodeAt t.disk n = dinodeAt s.disk n :=
    ⟨kept.orderly, kept.disk.super, kept.disk.other n inArea away⟩
  cases op with
  | iget inum =>
      obtain ⟨i, u, got, last⟩ := Act.bind_eq_ok.mp returned
      cases last
      exact conclude (orderly.iget inum allowed i t got).1 fun never => never
  | iput slot =>
      cases returned
      exact conclude (orderly.relock (i := slot) ((s.inode slot).count - 1) false rfl rfl
        fun _ => allowed) fun never => never
  | ilock slot =>
      obtain ⟨ip, u, read, rest⟩ := Act.bind_eq_ok.mp returned
      cases read
      obtain ⟨_, u, passed, last⟩ := Act.bind_eq_ok.mp rest
      have same : u = s := by
        have stays : Ensures (Act.stopIf ((s.inode slot).busy = true)
            (Fault.sleep (.inode slot))) s fun _ v => v = s := Ensures.stopIf fun _ => rfl
        exact stays _ u passed
      subst same
      cases last
      exact conclude (orderly.relock (i := slot) (u.inode slot).count true rfl rfl id)
        fun never => never
  | iunlock slot =>
      cases returned
      exact conclude (orderly.relock (i := slot) (s.inode slot).count false rfl rfl id)
        fun never => never
  | writei call =>
      obtain ⟨r, u, wrote, last⟩ := Act.bind_eq_ok.mp returned
      cases last
      obtain ⟨valid, direct, other⟩ := allowed
      have effect := writei_effect call.slot call.src call.off orderly valid.held valid.file
        direct r t wrote
      exact conclude effect.step (Ne.symm other)
  | mknod dp path type major minor =>
      obtain ⟨i, u, made, last⟩ := Act.bind_eq_ok.mp returned
      cases last
      obtain ⟨ready, used, other⟩ := allowed
      have effect := mknod_effect dp path type major minor orderly used ready i t made
      refine conclude effect.step ?_
      rintro (new | dir)
      · have unused := effect.unused
        rw [← new] at unused
        exact inUse unused
      · exact other dir.symm

/-- Every run keeps them. -/
theorem run_keeps {n m : Nat} {s t : State} (orderly : Orderly s)
    (inArea : n < (superOf s.disk).ninodes.toNat) (inUse : (dinodeAt s.disk n).type ≠ 0)
    (run : ReachIn (fun x => x = s) (Step n) m t) :
    Orderly t ∧ superOf t.disk = superOf s.disk ∧ dinodeAt t.disk n = dinodeAt s.disk n := by
  refine run.invariant (h := fun x => Orderly x ∧ superOf x.disk = superOf s.disk ∧
    dinodeAt x.disk n = dinodeAt s.disk n) ?_ ?_
  · rintro x rfl
    exact ⟨orderly, rfl, rfl⟩
  · rintro x y ⟨orderlyX, super, same⟩ step
    obtain ⟨orderlyY, superY, sameY⟩ := step_keeps orderlyX (by rw [super]; exact inArea)
      (by rw [same]; exact inUse) step
    exact ⟨orderlyY, superY.trans super, sameY.trans same⟩

end FileOp

/-- Whatever happens to the table after the last write, `iget` rebuilds the
inode that was evicted exactly when every block written to had been mapped
before. -/
theorem writes_survive_eviction_iff {s t u : State} {i : Fin NINODE}
    {calls : List (List UInt8 × Nat)} {m : Nat} (obtained : Obtained i s)
    (file : (s.inode i).type = T_FILE) (direct : ∀ call ∈ calls, InDirect call.2 call.1)
    (written : writeAll i calls s = .ok ((), t))
    (later : ReachIn (fun x => x = t) (FileOp.Step (s.inode i).inum.toNat) m u)
    (evicted : findSlot u rootdev (s.inode i).inum = none) :
    iget rootdev (s.inode i).inum u = .error (.panic "out of inode") ∨
      Yields (iget rootdev (s.inode i).inum) u fun j v =>
        (v.inode j).dinode = (t.inode i).dinode ↔
          ∀ lbn, TouchedBy calls lbn → (s.inode i).addrs (addrSlot lbn) ≠ 0 := by
  obtain ⟨orderly, held, synced⟩ := obtained.synced
  obtain ⟨orderlyT, -, inum, heldT, fileT, copy, grown⟩ :=
    writeAll_effect i calls (s.inode i).addrs orderly held file direct synced () t written
  have inArea := (orderlyT.seated i heldT).inArea
  rw [← inum] at later evicted ⊢
  have inUse : (dinodeAt t.disk (t.inode i).inum.toNat).type ≠ 0 := by
    rw [copy]
    show (t.inode i).type ≠ 0
    rw [fileT]
    decide
  obtain ⟨orderlyU, -, same⟩ := FileOp.run_keeps orderlyT inArea inUse later
  rcases iget_outcome rootdev (t.inode i).inum orderlyU.ready with
    yields | ⟨j, found, -, -⟩ | ⟨-, -, stopped⟩
  · right
    refine yields.mono ?_
    rintro j v ⟨ip, slot, wrote⟩
    rcases slot with ⟨found, -, -⟩ | ⟨-, -, loaded⟩
    · rw [evicted] at found
      cases found
    · have rebuilt : (v.inode j).dinode =
          { (t.inode i).dinode with addrs := (s.inode i).addrs } := by
        rw [wrote.at_slot, loaded, same, copy]
        rfl
      have blocks : (v.inode j).dinode = (t.inode i).dinode ↔
          (t.inode i).addrs = (s.inode i).addrs := by
        rw [rebuilt]
        simp only [Inode.dinode, Dinode.mk.injEq, true_and]
        exact eq_comm
      rw [blocks, grown.eq_iff]
  · rw [evicted] at found
    cases found
  · exact Or.inl stopped

/-- Open the file, write a byte to its first block, give the slot to another
inode, and open the file again; with the states in between. -/
def reopen : Act Fault State (Fin NINODE × State × State × State × State × Fin NINODE) := do
  let i ← iget rootdev 1
  let s ← Act.reads id
  writeAll i [([7], 0)]
  let t ← Act.reads id
  (FileOp.iput i).run
  let x ← Act.reads id
  (FileOp.iget 2).run
  let u ← Act.reads id
  let j ← iget rootdev (s.inode i).inum
  pure (i, s, t, x, u, j)

theorem reopen_parts {start s t x u v : State} {i j : Fin NINODE}
    (run : reopen start = .ok ((i, s, t, x, u, j), v)) :
    iget rootdev 1 start = .ok (i, s) ∧ writeAll i [([7], 0)] s = .ok ((), t) ∧
      (FileOp.iput i).run t = .ok ((), x) ∧ (FileOp.iget 2).run x = .ok ((), u) ∧
      iget rootdev (s.inode i).inum u = .ok (j, v) := by
  obtain ⟨i', s₁, opened, run⟩ := Act.bind_eq_ok.mp run
  obtain ⟨s', s₂, read, run⟩ := Act.bind_eq_ok.mp run
  cases read
  obtain ⟨⟨⟩, t₁, written, run⟩ := Act.bind_eq_ok.mp run
  obtain ⟨t', t₂, read, run⟩ := Act.bind_eq_ok.mp run
  cases read
  obtain ⟨⟨⟩, x₁, put, run⟩ := Act.bind_eq_ok.mp run
  obtain ⟨x', x₂, read, run⟩ := Act.bind_eq_ok.mp run
  cases read
  obtain ⟨⟨⟩, u₁, reused, run⟩ := Act.bind_eq_ok.mp run
  obtain ⟨u', u₂, read, run⟩ := Act.bind_eq_ok.mp run
  cases read
  obtain ⟨j', v₁, again, run⟩ := Act.bind_eq_ok.mp run
  cases run
  exact ⟨opened, written, put, reused, again⟩

theorem emptyFile_reopened : ∃ (i j : Fin NINODE) (s t u v : State),
    Obtained i s ∧ (s.inode i).type = T_FILE ∧ writeAll i [([7], 0)] s = .ok ((), t) ∧
      ReachIn (fun x => x = t) (FileOp.Step (s.inode i).inum.toNat) 2 u ∧
      findSlot u rootdev (s.inode i).inum = none ∧
      iget rootdev (s.inode i).inum u = .ok (j, v) ∧
      (v.inode j).addrs 0 ≠ (t.inode i).addrs 0 := by
  have checked : (match reopen emptyFileState with
      | .ok ((i, s, t, x, u, j), v) =>
          decide ((s.inode i).type = T_FILE) && decide (0 < (t.inode i).count) &&
            decide (2 < (superOf x.disk).ninodes.toNat) &&
            decide (findSlot u rootdev (s.inode i).inum = none) &&
            decide ((v.inode j).addrs 0 ≠ (t.inode i).addrs 0)
      | .error _ => false) = true := by decide +kernel
  cases outcome : reopen emptyFileState with
  | error stop =>
      rw [outcome] at checked
      cases checked
  | ok pair =>
      obtain ⟨⟨i, s, t, x, u, j⟩, v⟩ := pair
      rw [outcome] at checked
      simp only [Bool.and_eq_true, decide_eq_true_eq] at checked
      obtain ⟨⟨⟨⟨file, held⟩, inArea⟩, gone⟩, lost⟩ := checked
      obtain ⟨opened, written, put, reused, again⟩ := reopen_parts outcome
      refine ⟨i, j, s, t, u, v, ?_, file, written, ?_, gone, again, lost⟩
      · exact .iget emptyFileState 1 emptyFileState_orderly (by decide +kernel)
          (by decide +kernel) opened
      · exact .next (.next (.start rfl) ⟨.iput i, held, put⟩) ⟨.iget 2, inArea, reused⟩

/-- The block number of a newly written block is lost with the slot. -/
theorem written_file_lost_on_eviction :
    ¬∀ (i j : Fin NINODE) (calls : List (List UInt8 × Nat)) (m : Nat) (s t u v : State),
      Obtained i s → (s.inode i).type = T_FILE → (∀ call ∈ calls, InDirect call.2 call.1) →
      writeAll i calls s = .ok ((), t) →
      ReachIn (fun x => x = t) (FileOp.Step (s.inode i).inum.toNat) m u →
      findSlot u rootdev (s.inode i).inum = none →
      iget rootdev (s.inode i).inum u = .ok (j, v) →
      (v.inode j).dinode = (t.inode i).dinode := by
  intro claim
  obtain ⟨i, j, s, t, u, v, obtained, file, written, later, gone, again, lost⟩ :=
    emptyFile_reopened
  have same := claim i j [([7], 0)] 2 s t u v obtained file (by decide) written later gone again
  exact lost (congrFun (congrArg Dinode.addrs same) 0)

theorem emptyFile_survives_iff : ∃ (i : Fin NINODE) (s t u : State),
    writeAll i [([7], 0)] s = .ok ((), t) ∧
      (iget rootdev (s.inode i).inum u = .error (.panic "out of inode") ∨
        Yields (iget rootdev (s.inode i).inum) u fun j v =>
          (v.inode j).dinode = (t.inode i).dinode ↔
            ∀ lbn, TouchedBy [([7], 0)] lbn → (s.inode i).addrs (addrSlot lbn) ≠ 0) := by
  obtain ⟨i, j, s, t, u, v, obtained, file, written, later, gone, -, -⟩ := emptyFile_reopened
  exact ⟨i, s, t, u, written,
    writes_survive_eviction_iff obtained file (by decide) written later gone⟩

end Gcgos.Fs
