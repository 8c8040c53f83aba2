import Mathlib.Data.BitVec
import Mathlib.Tactic.Common

/-!
# Machine words

The C integer types the sources use.  A `uint32_t` is a `Word`, a `uint8_t` a
`Byte`.  Arithmetic wraps around, and a cast to a signed type reads the same
bits in two's complement (`BitVec.toInt`).  A buffer is a function from offsets
to bytes, and a number lies in it with its lowest byte first.
-/

namespace Hyrule

/-- `uint32_t`. -/
abbrev Word := BitVec 32

/-- `uint8_t`. -/
abbrev Byte := BitVec 8

/-- The address `a` is one of the `2^31` addresses from `base` on, counted
around the end of the address space. -/
def InWindow (base a : Word) : Prop := (a - base).toNat < 2 ^ 31

instance (base a : Word) : Decidable (InWindow base a) :=
  inferInstanceAs (Decidable (_ < _))

/-- Inside a window the difference cast to `int` is the difference of the
distances from its base. -/
theorem toInt_sub_of_inWindow {base a b : Word} (ha : InWindow base a) (hb : InWindow base b) :
    (a - b).toInt = ((a - base).toNat : Int) - (b - base).toNat := by
  unfold InWindow at ha hb
  have hsub : a - b = (a - base) - (b - base) := by grind
  rw [hsub]
  generalize a - base = x at *
  generalize b - base = y at *
  rw [BitVec.toInt_eq_toNat_cond, BitVec.toNat_sub]
  omega

/-! ## Rounding down -/

theorem and_not_add_and (a m : Word) : (a &&& ~~~m) + (a &&& m) = a := by
  rw [BitVec.add_eq_or_of_and_eq_zero]
  · ext i
    simp
    grind
  · ext i
    simp
    grind

/-- The low bits of a word are its remainder. -/
theorem toNat_and_low (a : Word) (k : Nat) {m : Nat} (hm : m + 1 = 2 ^ k)
    (hsize : m < 2 ^ 32) :
    (a &&& BitVec.ofNat 32 m).toNat = a.toNat % (m + 1) := by
  have hlow : (BitVec.ofNat 32 m).toNat = 2 ^ k - 1 := by
    rw [BitVec.toNat_ofNat, Nat.mod_eq_of_lt hsize]
    omega
  rw [BitVec.toNat_and, hlow, hm]
  exact Nat.and_two_pow_sub_one_eq_mod a.toNat k

/-- A word without its low bits is the multiple below it. -/
theorem toNat_and_not_low (a : Word) (k : Nat) {m : Nat} (hm : m + 1 = 2 ^ k)
    (hsize : m < 2 ^ 32) :
    (a &&& ~~~BitVec.ofNat 32 m).toNat = a.toNat - a.toNat % (m + 1) := by
  have hle : (a &&& ~~~BitVec.ofNat 32 m).toNat ≤ a.toNat := by
    rw [BitVec.toNat_and]
    exact Nat.and_le_left
  have hsum := congrArg BitVec.toNat (and_not_add_and a (BitVec.ofNat 32 m))
  rw [BitVec.toNat_add, toNat_and_low a k hm hsize] at hsum
  have hmod := Nat.mod_le a.toNat (m + 1)
  omega

/-! ## Bytes of a buffer -/

/-- `memcpy` of `n` bytes to an offset of a buffer. -/
def memcpy (dst : Nat → Byte) (offset : Nat) (src : Nat → Byte) (n : Nat) : Nat → Byte :=
  fun i => if offset ≤ i ∧ i < offset + n then src (i - offset) else dst i

theorem memcpy_of_lt {dst src : Nat → Byte} {offset n i : Nat} (h : i < offset) :
    memcpy dst offset src n i = dst i := by
  rw [memcpy, if_neg (by omega)]

theorem memcpy_of_ge {dst src : Nat → Byte} {offset n i : Nat} (h : offset + n ≤ i) :
    memcpy dst offset src n i = dst i := by
  rw [memcpy, if_neg (by omega)]

theorem memcpy_add {dst src : Nat → Byte} {offset n i : Nat} (h : i < n) :
    memcpy dst offset src n (offset + i) = src i := by
  rw [memcpy, if_pos (by omega), Nat.add_sub_cancel_left]

/-! ## Little-endian numbers -/

/-- The low `n` bytes of a number, the lowest first. -/
def leBytes : Nat → Nat → List Byte
  | 0, _ => []
  | n + 1, v => BitVec.ofNat 8 v :: leBytes n (v / 256)

/-- The number with the given bytes, the lowest first. -/
def ofLeBytes : List Byte → Nat
  | [] => 0
  | b :: bs => b.toNat + 256 * ofLeBytes bs

@[simp] theorem length_leBytes (n v : Nat) : (leBytes n v).length = n := by
  induction n generalizing v with
  | zero => rfl
  | succ n ih => simp [leBytes, ih]

/-- The low bytes are all that counts. -/
theorem leBytes_mod (n v : Nat) : leBytes n (v % 256 ^ n) = leBytes n v := by
  induction n generalizing v with
  | zero => rfl
  | succ n ih =>
    have hpow : 256 ^ (n + 1) = 256 * 256 ^ n := by rw [Nat.pow_succ, Nat.mul_comm]
    have hlow : BitVec.ofNat 8 (v % (256 * 256 ^ n)) = BitVec.ofNat 8 v := by
      apply BitVec.eq_of_toNat_eq
      rw [BitVec.toNat_ofNat, BitVec.toNat_ofNat]
      exact Nat.mod_mod_of_dvd v ⟨_, rfl⟩
    rw [leBytes, leBytes, hpow, hlow, Nat.mod_mul_right_div_self, ih]

theorem ofLeBytes_leBytes (n v : Nat) : ofLeBytes (leBytes n v) = v % 256 ^ n := by
  induction n generalizing v with
  | zero => simp [leBytes, ofLeBytes, Nat.mod_one]
  | succ n ih =>
    have hpow : 256 ^ (n + 1) = 256 * 256 ^ n := by rw [Nat.pow_succ, Nat.mul_comm]
    rw [leBytes, ofLeBytes, ih, BitVec.toNat_ofNat, hpow, Nat.mod_mul]

/-! ## Numbers that count -/

theorem toNat_ofNat_succ {n t : Nat} (hn : n < 2 ^ 32) (ht : t < n) :
    (BitVec.ofNat 32 (t + 1)).toNat = t + 1 := by
  rw [BitVec.toNat_ofNat]
  exact Nat.mod_eq_of_lt (Nat.lt_of_le_of_lt ht hn)

/-- Words that count from one differ as long as there are enough of them. -/
theorem ofNat_succ_inj {n t u : Nat} (hn : n < 2 ^ 32) (ht : t < n) (hu : u < n)
    (h : BitVec.ofNat 32 (t + 1) = BitVec.ofNat 32 (u + 1)) : t = u := by
  have htoNat := congrArg BitVec.toNat h
  rw [toNat_ofNat_succ hn ht, toNat_ofNat_succ hn hu] at htoNat
  exact Nat.succ.inj htoNat

end Hyrule
