import Gcgos.Fs.Create
import Gcgos.Kernel.Return

/-!
# Opening what was created

A call of `sys_open` that creates a file, and the calls with the same string
after it. They come to the new inode exactly when the string has no slash and
the directory entry that was filled had no old byte behind the name.
-/

set_option autoImplicit false

namespace Gcgos.Kernel

open Act ByteMap Fs

/-! ## The call that creates the file -/

/-- The part under `O_CREATE`, and the `iunlock` that follows it. -/
theorem openCreate_creates {s : Fs.State} {path : List UInt8} (behind : List UInt8) (tidy : Tidy s)
    (noNul : 0 ∉ path) (short : path.length < DIRSIZ)
    (unused : ∃ m, 1 ≤ m ∧ m < (superOf s.disk).ninodes.toNat ∧ (dinodeAt s.disk m).type = 0) :
    Ensures (openCreate (path ++ 0 :: behind)) s fun result w => ∀ i, result = some i →
      ∀ t : Fs.State, t.bio = w.bio →
        t.inode = Function.update w.inode i { w.inode i with busy := false } →
          Created s t i path := by
  have inArea : InArea s 1 := by
    obtain ⟨m, lower, upper, -⟩ := unused
    exact lt_of_le_of_lt lower upper
  unfold openCreate
  refine Ensures.seq (fun dp u run => And.intro (iget_ensures rootdev 1 tidy.orderly.ready dp u run)
    (tidy.orderly.iget 1 inArea dp u run)) ?_
  rintro dp u ⟨⟨ip, slot, wrote⟩, step, handed, disk, number, -, -⟩
  have root := (slot.holding wrote).slot
  refine Ensures.step rfl ?_
  apply Ensures.ite
  · intro _
    apply Ensures.pure
    rintro i ⟨⟩
  · intro isDir
    have dir : (u.inode dp).type = T_DIR := not_not.mp isDir
    have rootDir : (inodeOf s 1).type = T_DIR := by
      rw [root] at dir
      exact dir
    have ready : MknodReady u dp := by
      refine ⟨handed.held, ?_, by rw [disk]; exact unused⟩
      have small := tidy.small 1 inArea rootDir
      rw [root]
      simp only
      omega
    have used : Used u := by
      intro j held
      rw [disk]
      by_cases here : j = dp
      · rw [here, number, tidy.dinode_type, rootDir]
        decide
      · rw [handed.others j here] at held ⊢
        exact tidy.used j held
    refine Ensures.seq (fun i v run =>
      And.intro (mknod_effect dp _ T_FILE 0 0 step.orderly used ready i v run)
        (mknod_enters dp behind T_FILE 0 0 noNul short step.orderly used ready i v run)) ?_
    rintro i v ⟨effect, nonzero, b, k, entered⟩
    refine Ensures.step rfl ?_
    apply Ensures.pure
    rintro _ ⟨⟩ t bio inode
    have settles : Settles v t dp i := by
      refine ⟨bio, ?_, ?_, ?_⟩
      · rw [inode, Function.update_of_ne (Ne.symm effect.apart)]
        simp
      · rw [inode, Function.update_self]
        simp [effect.apart]
      · intro j notDir notNew
        rw [inode, Function.update_of_ne notNew]
        simp [notDir]
    have creation : Creation s u v t dp i ip := ⟨tidy, slot, wrote, dir, effect, settles⟩
    exact creation.created nonzero entered

/-- A path that names nothing is created. -/
theorem openInode_creates {s : Fs.State} {path : List UInt8} (behind : List UInt8) {arg1 : Int}
    (tidy : Tidy s) (noNul : 0 ∉ path) (short : path.length < DIRSIZ)
    (unused : ∃ m, 1 ≤ m ∧ m < (superOf s.disk).ninodes.toNat ∧ (dinodeAt s.disk m).type = 0)
    (missing : resolve s 1 (components path) = none) :
    Ensures (openInode (path ++ 0 :: behind) arg1) s fun result w => ∀ i, result = some i →
      ∀ t : Fs.State, t.bio = w.bio →
        t.inode = Function.update w.inode i { w.inode i with busy := false } →
          ∃ u, SameTable s u ∧ Created u t i path := by
  have inArea : InArea s 1 := by
    obtain ⟨m, lower, upper, -⟩ := unused
    exact lt_of_le_of_lt lower upper
  unfold openInode
  refine Ensures.seq (namei_ends path behind noNul tidy.orderly.ready tidy.idle tidy.closed
    inArea).ensures ?_
  intro result u resolved
  rw [missing] at resolved
  obtain ⟨rfl, same⟩ := resolved
  have disk := same.disk_eq
  apply Ensures.ite
  · intro _
    refine (openCreate_creates behind (tidy.sameTable same) noNul short
      (by rw [disk]; exact unused)).mono ?_
    intro result w created i new t bio inode
    exact ⟨u, same, created i new t bio inode⟩
  · intro _
    apply Ensures.pure
    rintro i ⟨⟩

/-- Descriptor `r` of the process stands for slot `i` of the inode table. -/
def Refers (t : State) (cp : Fin NPROC) (r : Int) (i : Fin NINODE) : Prop :=
  ∃ (slot : Fin NOFILE) (e : Fin NFD), r = slot.val ∧ (t.proc cp).fds slot = some e ∧
    (t.fds e).type = .FD_FILE ∧ (t.fds e).ip = some i

section

variable {link : Link} {cp : Fin NPROC}

theorem fdAlloc_eq (s : State) : fdAlloc s = .ok (freeEntry s, match freeEntry s with
    | none => s
    | some e => s.setFd e { s.fds e with type := .FD_NONE, ref := 1 }) := by
  unfold fdAlloc
  refine (Act.bind_of_ok (a := freeEntry s) rfl).trans ?_
  cases freeEntry s with
  | none => rfl
  | some e => rfl

theorem onFs_iunlock (ip : Fin NINODE) (s : State) :
    Yields (onFs (iunlock ip)) s fun _ t => Calm s t ∧ t.fs.bio = s.fs.bio ∧
      t.fs.inode = Function.update s.fs.inode ip { s.fs.inode ip with busy := false } := by
  have unlocked : Yields (iunlock ip) s.fs fun _ fs => fs.bio = s.fs.bio ∧
      fs.inode = Function.update s.fs.inode ip { s.fs.inode ip with busy := false } :=
    ⟨(), _, rfl, rfl, rfl⟩
  refine (onFs_yields unlocked).mono ?_
  rintro _ t ⟨calm, -, fs, met, same⟩
  exact ⟨calm, by rw [same]; exact met.1, by rw [same]; exact met.2⟩

/-- With an entry and a slot to give, the end of `sys_open` gives them. -/
theorem openInstall_yields (ip : Fin NINODE) (arg1 : Int) {s : State} {e : Fin NFD}
    {slot : Fin NOFILE} (entry : freeEntry s = some e) (free : (s.proc cp).freeSlot = some slot) :
    Yields (openInstall link cp ip arg1) s fun r t => Refers t cp r ip ∧ t.fs.bio = s.fs.bio ∧
      t.fs.inode = Function.update s.fs.inode ip { s.fs.inode ip with busy := false } := by
  unfold openInstall
  refine Yields.step (fdAlloc_eq s) ?_
  rw [entry]
  refine Yields.step (a := some slot) (by rw [← free]; rfl) ?_
  refine Yields.seq (onFs_iunlock ip _) ?_
  rintro _ t ⟨calm, bio, inode⟩
  refine Yields.step rfl ?_
  refine Yields.step rfl ?_
  refine ⟨_, _, rfl, ⟨slot, e, rfl, ?_, ?_, ?_⟩, bio, inode⟩
  · simp [Proc.install, State.setProc]
  · simp [Fd.opened, State.setProc, State.setFd]
  · simp [Fd.opened, State.setProc, State.setFd]

theorem openInstall_refers (ip : Fin NINODE) (arg1 : Int) (s : State) :
    Ensures (openInstall link cp ip arg1) s fun r t => 0 ≤ r → Refers t cp r ip ∧
      t.fs.bio = s.fs.bio ∧
      t.fs.inode = Function.update s.fs.inode ip { s.fs.inode ip with busy := false } := by
  cases entry : freeEntry s with
  | none =>
      unfold openInstall
      refine Ensures.step (fdAlloc_eq s) ?_
      rw [entry]
      refine Ensures.step rfl ?_
      exact Ensures.seq (onFs_calm _ s) fun _ _ _ => Ensures.fail
  | some e =>
      cases free : (s.proc cp).freeSlot with
      | some slot =>
          refine (openInstall_yields ip arg1 entry free).ensures.mono ?_
          intro r t done _
          exact done
      | none =>
          unfold openInstall
          refine Ensures.step (fdAlloc_eq s) ?_
          rw [entry]
          refine Ensures.step (a := none) (by rw [← free]; rfl) ?_
          refine Ensures.seq (onFs_calm _ _) fun _ t _ => ?_
          refine Ensures.step rfl ?_
          refine Ensures.step rfl ?_
          apply Ensures.pure
          intro nonneg
          simp at nonneg

/-- A call that creates the file and returns a descriptor. -/
theorem sysOpen_creates {s : State} {path : List UInt8} {behind : List UInt8} {arg1 : Int}
    (tidy : Tidy s.fs) (noNul : 0 ∉ path) (short : path.length < DIRSIZ)
    (unused : ∃ m, 1 ≤ m ∧ m < (superOf s.fs.disk).ninodes.toNat ∧
      (dinodeAt s.fs.disk m).type = 0)
    (missing : resolve s.fs 1 (components path) = none)
    (named : argaddr link cp 0 DIRSIZ s = .ok (path ++ 0 :: behind, s))
    (flags : argraw link cp 1 s = .ok (arg1, s)) :
    Ensures (sysOpen link cp) s fun r t => 0 ≤ r →
      ∃ i, Refers t cp r i ∧ ∃ u, SameTable s.fs u ∧ Created u t.fs i path := by
  unfold sysOpen
  refine Ensures.step named ?_
  refine Ensures.step flags ?_
  refine Ensures.seq (onFs_ensures (openInode_creates behind tidy noNul short unused missing)) ?_
  rintro result t ⟨-, -, fs, creates, same⟩
  cases result with
  | none =>
      apply Ensures.pure
      intro nonneg
      simp at nonneg
  | some i =>
      refine (openInstall_refers i arg1 t).mono ?_
      intro r u installed nonneg
      obtain ⟨refers, bio, inode⟩ := installed nonneg
      rw [same] at bio inode
      exact ⟨i, refers, creates i rfl u.fs bio inode⟩

/-! ## The calls after it -/

/-- The process has a descriptor slot to give, and the kernel an entry. -/
def CanOpen (s : State) (cp : Fin NPROC) : Prop :=
  freeEntry s ≠ none ∧ (s.proc cp).freeSlot ≠ none

end

/-- A later `sys_open` of the string `file`, while the file system is that of
`t`, opens slot `i` and writes nothing to the disk. -/
structure Reopens (link : Link) (t : State) (file : List UInt8) (mode : Int) (i : Fin NINODE) :
    Prop where
  inode : Yields (openInode file mode) t.fs fun result u => result = some i ∧ u.disk = t.fs.disk
  call : ∀ (cp : Fin NPROC) (u : State), u.fs = t.fs → CanOpen u cp →
    argaddr link cp 0 DIRSIZ u = .ok (file, u) → argraw link cp 1 u = .ok (mode, u) →
      Yields (sysOpen link cp) u fun r v => Refers v cp r i ∧ v.fs.disk = t.fs.disk

theorem Reopens.of_openInode {link : Link} {t : State} {file : List UInt8} {mode : Int}
    {i : Fin NINODE}
    (opens : Yields (openInode file mode) t.fs fun result u => result = some i ∧
      u.disk = t.fs.disk) : Reopens link t file mode i := by
  refine ⟨opens, ?_⟩
  rintro cp u same ⟨entry, free⟩ named flags
  obtain ⟨e, entry⟩ := Option.ne_none_iff_exists'.mp entry
  obtain ⟨slot, free⟩ := Option.ne_none_iff_exists'.mp free
  rw [← same] at opens
  unfold sysOpen
  refine Yields.step named ?_
  refine Yields.step flags ?_
  refine Yields.seq (onFs_yields opens) ?_
  rintro _ v ⟨calm, -, fs, ⟨rfl, disk⟩, sameFs⟩
  have diskV : v.fs.disk = t.fs.disk := by
    rw [sameFs, ← same]
    exact disk
  have entryV : freeEntry v = some e := by
    rw [← entry]
    unfold freeEntry
    rw [calm.fds]
  have freeV : (v.proc cp).freeSlot = some slot := by
    rw [freeSlot_congr (calm.proc cp).fds, free]
  refine (openInstall_yields i mode entryV freeV).mono ?_
  rintro r w ⟨refers, bio, -⟩
  refine ⟨refers, ?_⟩
  rw [← diskV]
  exact congrArg (fun bio => bio.sd.block) bio

/-- Every later call with the string, to open the file or to create it, comes to
slot `i`. -/
def ReopensAs (link : Link) (t : State) (path : List UInt8) (i : Fin NINODE) : Prop :=
  ∀ behind mode, mode = 0 ∨ hasFlag mode O_CREATE → Reopens link t (path ++ 0 :: behind) mode i

section

variable {s : Fs.State} {t : State} {i : Fin NINODE} {path : List UInt8}

theorem reopensAs_of_new {link : Link}
    (found : ∀ behind, Yields (namei (path ++ 0 :: behind)) t.fs fun result u =>
      result = some i ∧ Holding t.fs u i (t.fs.inode i).inum) : ReopensAs link t path i := by
  intro behind mode _
  apply Reopens.of_openInode
  unfold openInode
  refine Yields.seq (found behind) ?_
  rintro _ u ⟨rfl, holding⟩
  exact ⟨_, u, rfl, rfl, holding.bio.disk⟩

/-- Where `namei` comes to the new inode, it has followed the new entry. -/
theorem newName_of_reopens {link : Link} (tidy : Tidy s) (created : Created s t.fs i path)
    (short : path.length < DIRSIZ) (noNul : 0 ∉ path) (inArea : InArea s 1) {b k : Nat}
    (entered : Fs.Entered s t.fs (inodeOf s 1) (t.fs.inode i).inum path b k)
    (reopens : ReopensAs link t path i) : Created.newName s b k path ∈ components path := by
  obtain ⟨result, u, run, rfl, -⟩ := (reopens [] 0 (Or.inl rfl)).inode
  have noFlag : ¬hasFlag 0 O_CREATE := by decide
  unfold openInode at run
  obtain ⟨found, v, walked, rest⟩ := Act.bind_eq_ok.mp run
  have resolved := (namei_ends path [] noNul created.orderly.ready created.idle
    (created.closed tidy short) inArea).ensures found v walked
  cases found with
  | none =>
      simp only [if_neg noFlag] at rest
      cases rest
  | some j =>
      cases rest
      cases named : resolve t.fs 1 (components path) with
      | none =>
          rw [named] at resolved
          exact absurd resolved.1 (by simp)
      | some d =>
          rw [named] at resolved
          obtain ⟨_, ⟨⟩, holding⟩ := resolved
          have number : d = (t.fs.inode i).inum := by
            have before := holding.before created.held
            rw [holding.slot] at before
            rw [before]
          rw [number] at named
          exact created.resolve_new tidy short entered inArea (Ne.symm created.notRoot) named

end

theorem reopens_iff {link : Link} {cp : Fin NPROC} {s t : State} {r arg1 : Int}
    {path behind : List UInt8} (tidy : Tidy s.fs)
    (unused : ∃ m, 1 ≤ m ∧ m < (superOf s.fs.disk).ninodes.toNat ∧
      (dinodeAt s.fs.disk m).type = 0)
    (noNul : 0 ∉ path) (nonempty : path ≠ []) (short : path.length < DIRSIZ)
    (missing : resolve s.fs 1 (components path) = none)
    (named : argaddr link cp 0 DIRSIZ s = .ok (path ++ 0 :: behind, s))
    (flags : argraw link cp 1 s = .ok (arg1, s))
    (returned : sysOpen link cp s = .ok (r, t)) (descriptor : 0 ≤ r) :
    ∃ i, Refers t cp r i ∧
      (ReopensAs link t path i ↔ slash ∉ path ∧ CleanEntry s.fs path) := by
  obtain ⟨i, refers, u, same, created⟩ :=
    sysOpen_creates tidy noNul short unused missing named flags r t returned descriptor
  refine ⟨i, refers, ?_⟩
  have tidyU := tidy.sameTable same
  have inArea : InArea u 1 := by
    obtain ⟨m, lower, upper, -⟩ := unused
    unfold InArea
    rw [same.disk_eq]
    exact lt_of_le_of_lt lower upper
  have clean : CleanEntry s.fs path ↔ CleanEntry u path := by
    unfold CleanEntry
    rw [same.disk_eq, same.inodeOf_eq]
  obtain ⟨b, k, entered⟩ := created.entered
  rw [clean]
  constructor
  · intro reopens
    rw [← newName_mem_iff entered.first noNul short nonempty]
    exact newName_of_reopens tidyU created short noNul inArea entered reopens
  · rintro ⟨noSlash, noOldByte⟩
    have alone := (cleanEntry_iff entered.first noNul short).mp noOldByte
    have absent : findEntry (dirEntries u.disk (inodeOf u 1)) path = none := by
      rw [same.disk_eq, same.inodeOf_eq]
      apply findEntry_none_of_resolve
      · rw [← same.inodeOf_eq]
        exact created.rootDir
      · rw [← components_single noSlash nonempty]
        exact missing
    apply reopensAs_of_new
    intro behind
    exact created.namei_new tidyU short nonempty noNul noSlash behind inArea
      (created.findEntry_new tidyU short entered inArea alone absent)

/-! ## A string with a slash, and one without -/

/-- The small disk with a root directory in block 5, whose one entry is for
itself. -/
def rootDisk (sector : Nat) : Block :=
  if sector = 2 then
    Block.zero.put dinodeSize
      (⟨T_DIR, 0, 0, 1, 16, fun k => if k.val = 0 then 5 else 0⟩ : Dinode).bytes
  else if sector = 5 then Block.zero.put 0 [1, 0, 46]
  else smallDisk sector

def rootState : Fs.State := Fs.State.loaded rootDisk

theorem rootState_disk :
    (superOf rootState.disk).ninodes.toNat = 3 ∧ dataStart (superOf rootState.disk) = 5 ∧
    ((superOf rootState.disk).size.toNat < 2 ^ 31 ∧
      dataStart (superOf rootState.disk) ≤ (superOf rootState.disk).size.toNat) ∧
    (∀ b, b < 5 → marked rootState.disk (superOf rootState.disk).ninodes b = true) ∧
    (∀ n, n < 3 → ∀ k, (dinodeAt rootState.disk n).addrs k = 0 ∨
      (dinodeAt rootState.disk n).addrs k = 5) ∧
    (dinodeAt rootState.disk 2).type = 0 := by
  decide +kernel

/-- Its one directory, and the entries of that directory's block. -/
theorem rootState_dir :
    (∀ n, n < 3 → (inodeOf rootState (UInt32.ofNat n)).type = T_DIR → n = 1) ∧
    (inodeOf rootState 1).size = 16 ∧
    (∀ entry ∈ dirEntriesFrom rootState.disk (inodeOf rootState 1) 0
        (dirBlocks ((inodeOf rootState 1).size + UInt32.ofNat direntSize)),
      entry.1 ≠ 0 → entry.1.toNat < 3 ∧ (dinodeAt rootState.disk entry.1.toNat).type ≠ 0) := by
  decide +kernel

theorem rootState_vacant (i : Fin NINODE) : ¬0 < (rootState.inode i).count :=
  Int.lt_irrefl 0

theorem rootState_orderly : Orderly rootState := by
  obtain ⟨count, start, ⟨size, fits⟩, bits, addrs, -⟩ := rootState_disk
  refine ⟨⟨rfl, by decide +kernel⟩, ⟨⟨size, by rw [count]; decide, fits⟩, ?_⟩, ?_, ?_, ?_⟩
  · rw [start]
    exact bits
  · exact fun i held => absurd held (rootState_vacant i)
  · exact fun i j held => absurd held (rootState_vacant i)
  · intro n bound k _
    rw [count] at bound
    rcases addrs n bound k with zero | five
    · rw [zero]
      exact Or.inl rfl
    · right
      rw [five, start]
      decide

theorem rootState_tidy : Tidy rootState := by
  have count := rootState_disk.1
  obtain ⟨only, size, entries⟩ := rootState_dir
  have root : ∀ d : UInt32, d.toNat < 3 → (inodeOf rootState d).type = T_DIR → d = 1 := by
    intro d bound isDir
    have number := only d.toNat bound (by rw [UInt32.ofNat_toNat]; exact isDir)
    exact UInt32.toNat_inj.mp number
  refine ⟨rootState_orderly, ?_, fun _ => rfl, by rw [count]; decide, ?_, ?_⟩
  · exact fun i held => absurd held (rootState_vacant i)
  · intro d bound isDir
    rw [count] at bound
    rw [root d bound isDir, size]
    decide
  · intro d bound isDir
    rw [count] at bound ⊢
    rw [root d bound isDir]
    exact entries

/-- A process that asks to create the file of this name. -/
def creator (path : List UInt8) : State :=
  let s := smallUser initSlot [0x105447] [0, O_CREATE]
  { s with
    fs := rootState
    mm := ⟨putBytes s.mm.mem 0x105000 path, 0⟩ }

/-- What is left after the call. -/
def creatorDone (path : List UInt8) : State := (sysOpen smallLink initSlot).after (creator path)

theorem rootState_unused : ∃ m, 1 ≤ m ∧ m < (superOf rootState.disk).ninodes.toNat ∧
    (dinodeAt rootState.disk m).type = 0 := by
  obtain ⟨count, -, -, -, -, unused⟩ := rootState_disk
  exact ⟨2, by decide, by rw [count]; decide, unused⟩

/-- The first unused entry of the root directory has no bytes. -/
theorem rootState_clean (path : List UInt8) (short : path.length < DIRSIZ) :
    CleanEntry rootState path := by
  have first : FirstUnused rootState.disk (inodeOf rootState 1) 0 1 := by
    refine ⟨by decide +kernel, by decide +kernel, fun j earlier => ?_⟩
    exact absurd earlier (Nat.not_lt_zero j)
  have empty : ∀ n, n < DIRSIZ →
      ((rootState.disk ((inodeOf rootState 1).addrs (addrSlot 0)).toNat).direntName 1).getD n 0 = 0 := by
    decide +kernel
  intro b k other
  obtain ⟨rfl, rfl⟩ := first.unique other
  exact empty path.length short

theorem creator_named {path bytes : List UInt8}
    (computed : (argaddr smallLink initSlot 0 DIRSIZ (creator path)).toOption.map Prod.fst =
      some bytes) :
    argaddr smallLink initSlot 0 DIRSIZ (creator path) = .ok (bytes, creator path) :=
  Act.ok_of_value (argaddr_look initSlot 0 _ _) computed

theorem creator_flags {path : List UInt8}
    (computed : (argraw smallLink initSlot 1 (creator path)).toOption.map Prod.fst = some 0x200) :
    argraw smallLink initSlot 1 (creator path) = .ok (0x200, creator path) := by
  refine Act.ok_of_value ?_ computed
  exact (argraw_ensures initSlot 1 _).mono fun _ _ done => done.2

theorem creator_plain :
    (argaddr smallLink initSlot 0 DIRSIZ (creator [97])).toOption.map Prod.fst =
      some ([97] ++ 0 :: List.replicate 12 0) ∧
    (argraw smallLink initSlot 1 (creator [97])).toOption.map Prod.fst = some 0x200 ∧
    resolve rootState 1 (components [97]) = none ∧
    ((sysOpen smallLink initSlot (creator [97])).toOption.map Prod.fst = some 0) := by
  decide +kernel

/-- `a` is created, and opened again. -/
theorem reopens_iff_plain :
    ∃ i, Refers (creatorDone [97]) initSlot 0 i ∧ ReopensAs smallLink (creatorDone [97]) [97] i := by
  obtain ⟨named, flags, missing, opened⟩ := creator_plain
  obtain ⟨i, refers, iff⟩ := reopens_iff (s := creator [97]) rootState_tidy rootState_unused
    (by decide) (by decide) (by decide) missing (creator_named named) (creator_flags flags)
    (Act.ok_after opened) le_rfl
  exact ⟨i, refers, iff.mpr ⟨by decide, rootState_clean [97] (by decide)⟩⟩

theorem creator_slash :
    (argaddr smallLink initSlot 0 DIRSIZ (creator [47, 97])).toOption.map Prod.fst =
      some ([47, 97] ++ 0 :: List.replicate 11 0) ∧
    (argraw smallLink initSlot 1 (creator [47, 97])).toOption.map Prod.fst = some 0x200 ∧
    resolve rootState 1 (components [47, 97]) = none ∧
    (sysOpen smallLink initSlot (creator [47, 97])).toOption.map Prod.fst = some 0 ∧
    (openInode ([47, 97] ++ 0 :: List.replicate 11 0) 0
      (creatorDone [47, 97]).fs).toOption.map Prod.fst = some none := by
  decide +kernel

/-- `/a` is created, and no call opens it again. -/
theorem slash_not_reopened :
    Tidy (creator [47, 97]).fs ∧
    (∃ m, 1 ≤ m ∧ m < (superOf (creator [47, 97]).fs.disk).ninodes.toNat ∧
      (dinodeAt (creator [47, 97]).fs.disk m).type = 0) ∧
    resolve (creator [47, 97]).fs 1 (components [47, 97]) = none ∧
    argaddr smallLink initSlot 0 DIRSIZ (creator [47, 97]) =
      .ok ([47, 97] ++ 0 :: List.replicate 11 0, creator [47, 97]) ∧
    argraw smallLink initSlot 1 (creator [47, 97]) = .ok (0x200, creator [47, 97]) ∧
    sysOpen smallLink initSlot (creator [47, 97]) = .ok (0, creatorDone [47, 97]) ∧
    ∀ i, ¬ReopensAs smallLink (creatorDone [47, 97]) [47, 97] i := by
  obtain ⟨named, flags, missing, opened, fails⟩ := creator_slash
  refine ⟨rootState_tidy, rootState_unused, missing, creator_named named, creator_flags flags,
    Act.ok_after opened, ?_⟩
  intro i reopens
  obtain ⟨_, u, run, rfl, -⟩ := (reopens (List.replicate 11 0) 0 (Or.inl rfl)).inode
  rw [run] at fails
  cases fails

end Gcgos.Kernel
