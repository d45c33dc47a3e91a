import Mathlib.Data.List.GetD
import Mathlib.Algebra.Order.Group.Nat
import Mathlib.Tactic.Ring

/-!
# Byte-addressed maps and little-endian fields

A byte map gives a byte for every address. A field is the little-endian number
in a run of consecutive bytes. The lemmas say what a field reads after a run
of bytes was stored: the stored number when the two coincide, and the old
number when they do not meet. They hold for a disk block, a page of memory or
any other byte map.
-/

set_option autoImplicit false

namespace ByteMap

/-- The little-endian number in the `width` bytes from `addr` on. -/
def leNat (bytes : Nat → UInt8) : (addr width : Nat) → Nat
  | _, 0 => 0
  | addr, width + 1 => (bytes addr).toNat + 256 * leNat bytes (addr + 1) width

/-- The `width` low bytes of `value`, least significant first. -/
def leBytes : (width value : Nat) → List UInt8
  | 0, _ => []
  | width + 1, value => UInt8.ofNat value :: leBytes width (value / 256)

/-- Store a run of bytes from `addr` on. -/
def putBytes (bytes : Nat → UInt8) (addr : Nat) (run : List UInt8) : Nat → UInt8 :=
  fun i => if addr ≤ i ∧ i < addr + run.length then run.getD (i - addr) 0 else bytes i

/-- The `count` bytes from `addr` on. -/
def getBytes (bytes : Nat → UInt8) (addr count : Nat) : List UInt8 :=
  (List.range count).map fun i => bytes (addr + i)

@[simp] theorem leBytes_length (width value : Nat) :
    (leBytes width value).length = width := by
  induction width generalizing value with
  | zero => rfl
  | succ width ih => simp [leBytes, ih]

/-- Only the low bytes of a number are stored. -/
theorem leBytes_mod (width value : Nat) :
    leBytes width (value % 256 ^ width) = leBytes width value := by
  induction width generalizing value with
  | zero => rfl
  | succ width ih =>
      have rest : value % 256 ^ (width + 1) / 256 = value / 256 % 256 ^ width := by
        rw [Nat.pow_succ, Nat.mul_comm, Nat.mod_mul_right_div_self]
      have first : UInt8.ofNat (value % 256 ^ (width + 1)) = UInt8.ofNat value := by
        apply UInt8.toNat_inj.mp
        rw [UInt8.toNat_ofNat', UInt8.toNat_ofNat']
        exact Nat.mod_mod_of_dvd _ (Dvd.intro_left (256 ^ width) rfl)
      simp only [leBytes, first, rest, ih]

@[simp] theorem getBytes_length (bytes : Nat → UInt8) (addr count : Nat) :
    (getBytes bytes addr count).length = count := by
  simp [getBytes]

theorem getBytes_getD (bytes : Nat → UInt8) (addr count i : Nat) (bound : i < count) :
    (getBytes bytes addr count).getD i 0 = bytes (addr + i) := by
  rw [List.getD_eq_getElem _ _ (by simpa using bound)]
  simp [getBytes]

theorem leNat_lt (bytes : Nat → UInt8) (addr width : Nat) :
    leNat bytes addr width < 256 ^ width := by
  induction width generalizing addr with
  | zero => simp [leNat]
  | succ width ih =>
      have head := (bytes addr).toNat_lt
      have tail := ih (addr + 1)
      simp only [leNat, pow_succ]
      omega

/-- A field depends on its own bytes only. -/
theorem leNat_congr {bytes other : Nat → UInt8} {addr width : Nat}
    (same : ∀ i, addr ≤ i → i < addr + width → bytes i = other i) :
    leNat bytes addr width = leNat other addr width := by
  induction width generalizing addr with
  | zero => rfl
  | succ width ih =>
      have head : bytes addr = other addr := same addr (by omega) (by omega)
      have tail : leNat bytes (addr + 1) width = leNat other (addr + 1) width := by
        apply ih
        intro i lower upper
        exact same i (by omega) (by omega)
      simp only [leNat, head, tail]

/-- Fields with the same bytes hold the same number, wherever they are. -/
theorem leNat_shift {bytes other : Nat → UInt8} {addr place width : Nat}
    (same : ∀ i, i < width → bytes (addr + i) = other (place + i)) :
    leNat bytes addr width = leNat other place width := by
  induction width generalizing addr place with
  | zero => rfl
  | succ width ih =>
      have head : bytes addr = other place := same 0 (by omega)
      have tail : leNat bytes (addr + 1) width = leNat other (place + 1) width := by
        apply ih
        intro i bound
        have next := same (i + 1) (by omega)
        rwa [Nat.add_comm i 1, ← Nat.add_assoc, ← Nat.add_assoc] at next
      simp only [leNat, head, tail]

theorem putBytes_outside {bytes : Nat → UInt8} {addr : Nat} {run : List UInt8} {i : Nat}
    (outside : i < addr ∨ addr + run.length ≤ i) :
    putBytes bytes addr run i = bytes i := by
  unfold putBytes
  rw [if_neg (by omega)]

theorem putBytes_inside {bytes : Nat → UInt8} {addr : Nat} {run : List UInt8} {i : Nat}
    (lower : addr ≤ i) (upper : i < addr + run.length) :
    putBytes bytes addr run i = run.getD (i - addr) 0 := by
  unfold putBytes
  rw [if_pos ⟨lower, upper⟩]

/-- A run is its first byte and then the others. -/
theorem putBytes_cons (bytes : Nat → UInt8) (addr : Nat) (byte : UInt8) (rest : List UInt8) :
    putBytes (putBytes bytes addr [byte]) (addr + 1) rest = putBytes bytes addr (byte :: rest) := by
  funext i
  by_cases inside : addr ≤ i ∧ i < addr + (rest.length + 1)
  · rw [putBytes_inside inside.1 (by simpa using inside.2)]
    by_cases first : i = addr
    · subst first
      rw [putBytes_outside (by omega), putBytes_inside le_rfl (by simp), Nat.sub_self]
      rfl
    · rw [putBytes_inside (by omega) (by omega), show i - addr = i - (addr + 1) + 1 by omega]
      rfl
  · rw [putBytes_outside (by omega), putBytes_outside (by simp; omega),
      putBytes_outside (by simp; omega)]

/-- A stored run is read back. -/
theorem getBytes_putBytes (bytes : Nat → UInt8) (addr : Nat) (run : List UInt8) :
    getBytes (putBytes bytes addr run) addr run.length = run := by
  refine List.ext_getElem (getBytes_length _ _ _) ?_
  intro i bound inside
  have here : putBytes bytes addr run (addr + i) = run.getD i 0 := by
    rw [putBytes_inside (by omega) (by omega), Nat.add_sub_cancel_left]
  rw [List.getD_eq_getElem _ _ inside] at here
  simpa [getBytes] using here

/-- A field that does not meet the stored run keeps its number. -/
theorem leNat_putBytes_apart {bytes : Nat → UInt8} {addr : Nat} {run : List UInt8}
    {field width : Nat}
    (apart : field + width ≤ addr ∨ addr + run.length ≤ field) :
    leNat (putBytes bytes addr run) field width = leNat bytes field width := by
  apply leNat_congr
  intro i lower upper
  exact putBytes_outside (by omega)

/-- A field stored whole reads back as the stored number. -/
theorem leNat_putBytes_leBytes (bytes : Nat → UInt8) (addr width value : Nat) :
    leNat (putBytes bytes addr (leBytes width value)) addr width =
      value % 256 ^ width := by
  induction width generalizing addr value with
  | zero => simp [leNat, Nat.mod_one]
  | succ width ih =>
      have head : putBytes bytes addr (leBytes (width + 1) value) addr =
          UInt8.ofNat value := by
        rw [putBytes_inside (le_refl _) (by simp)]
        simp [leBytes]
      have tail : leNat (putBytes bytes addr (leBytes (width + 1) value)) (addr + 1) width =
          leNat (putBytes bytes (addr + 1) (leBytes width (value / 256))) (addr + 1) width := by
        apply leNat_congr
        intro i lower upper
        rw [putBytes_inside (by omega) (by simp; omega),
          putBytes_inside lower (by simp; omega)]
        obtain ⟨offset, rfl⟩ := Nat.exists_eq_add_of_le lower
        have shift : addr + 1 + offset - addr = offset + 1 := by omega
        have base : addr + 1 + offset - (addr + 1) = offset := by omega
        rw [shift, base]
        simp [leBytes]
      have split : value % 256 ^ (width + 1) =
          value % 256 + 256 * (value / 256 % 256 ^ width) := by
        rw [pow_succ, Nat.mul_comm (256 ^ width) 256, Nat.mod_mul]
      rw [leNat, head, tail, ih, split]
      simp

/-- A field inside a stored run reads back as well. -/
theorem leNat_putBytes_field (bytes : Nat → UInt8) (addr width value : Nat)
    {run front back : List UInt8} (parts : run = front ++ leBytes width value ++ back) :
    leNat (putBytes bytes addr run) (addr + front.length) width = value % 256 ^ width := by
  rw [← leNat_putBytes_leBytes bytes (addr + front.length) width value]
  apply leNat_congr
  intro i lower upper
  have total : run.length = front.length + width + back.length := by
    rw [parts, List.length_append, List.length_append, leBytes_length]
  rw [putBytes_inside (by omega) (by omega), putBytes_inside lower (by simp; omega), parts,
    List.append_assoc, List.getD_append_right _ _ _ _ (by omega),
    List.getD_append _ _ _ _ (by rw [leBytes_length]; omega)]
  congr 1
  omega

end ByteMap
