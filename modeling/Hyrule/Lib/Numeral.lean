import Mathlib.Data.Nat.Digits.Lemmas

/-!
# Numerals

The digits of a number in a base, the highest first, as numbers are written.  Zero is
written with one digit.

A number is written without a table or a buffer by first finding the power of the base
that belongs to its highest digit, and then taking off one digit after the other
(`numeral_eq_padded`).  It is read back by adding digits at its end
(`readNumeral_numeral`).
-/

namespace Lib

variable {base n k : Nat}

/-- The digits of a number, the highest first. -/
def numeral (base n : Nat) : List Nat :=
  if n = 0 then [0] else (Nat.digits base n).reverse

/-- The digits of a number below `base ^ k`, with zeros in front. -/
def paddedNumeral (base : Nat) : Nat → Nat → List Nat
  | 0, _ => []
  | k + 1, n => n / base ^ k :: paddedNumeral base k (n % base ^ k)

/-- The number that digits stand for, read from the highest on, behind another number. -/
def readNumeral (base : Nat) (value : Nat) (digits : List Nat) : Nat :=
  digits.foldl (fun value digit => value * base + digit) value

theorem numeral_ne_nil (base n : Nat) : numeral base n ≠ [] := by
  unfold numeral
  split
  next => simp
  next hn => simpa [Nat.digits_ne_nil_iff_ne_zero] using hn

theorem numeral_lt (hbase : 1 < base) {d : Nat} (hd : d ∈ numeral base n) : d < base := by
  unfold numeral at hd
  split at hd
  next =>
    rw [List.mem_singleton] at hd
    omega
  next => exact Nat.digits_lt_base hbase (List.mem_reverse.mp hd)

/-- No numeral but that of zero begins with a zero. -/
theorem numeral_head (hn : n ≠ 0) : (numeral base n).head? ≠ some 0 := by
  rw [numeral, if_neg hn, List.head?_reverse]
  intro hlast
  have hne : Nat.digits base n ≠ [] := Nat.digits_ne_nil_iff_ne_zero.mpr hn
  rw [List.getLast?_eq_some_getLast hne] at hlast
  exact Nat.getLast_digit_ne_zero base hn (Option.some.inj hlast)

theorem readNumeral_cons (value digit : Nat) (digits : List Nat) :
    readNumeral base value (digit :: digits) = readNumeral base (value * base + digit) digits :=
  rfl

theorem readNumeral_reverse (digits : List Nat) :
    readNumeral base 0 digits.reverse = Nat.ofDigits base digits := by
  induction digits with
  | nil => rfl
  | cons d digits ih =>
    have happend : readNumeral base 0 (digits.reverse ++ [d]) =
        readNumeral base 0 digits.reverse * base + d := List.foldl_append
    rw [List.reverse_cons, happend, ih, Nat.ofDigits_cons, Nat.mul_comm, Nat.add_comm]

/-- A numeral is read back. -/
theorem readNumeral_numeral (base n : Nat) : readNumeral base 0 (numeral base n) = n := by
  unfold numeral
  split
  next hn => rw [hn, readNumeral, List.foldl_cons, List.foldl_nil, Nat.zero_mul]
  next => rw [readNumeral_reverse, Nat.ofDigits_digits]

/-- The number of digits is that of the power. -/
theorem length_numeral_le (hbase : 1 < base) (hk : 0 < k) (hn : n < base ^ k) :
    (numeral base n).length ≤ k := by
  unfold numeral
  split
  next => exact hk
  next => rwa [List.length_reverse, Nat.digits_length_le_iff hbase]

/-! ## Writing a numeral -/

theorem paddedNumeral_lt (hn : n < base ^ k) {d : Nat} (hd : d ∈ paddedNumeral base k n) :
    d < base := by
  induction k generalizing n with
  | zero => cases hd
  | succ k ih =>
    have hpos : 0 < base ^ k := by
      rw [Nat.pow_succ] at hn
      exact Nat.pos_of_ne_zero fun h => by simp [h] at hn
    rcases List.mem_cons.mp hd with rfl | hd
    · rw [Nat.pow_succ, Nat.mul_comm] at hn
      exact Nat.div_lt_of_lt_mul (by rwa [Nat.mul_comm] at hn)
    · exact ih (Nat.mod_lt _ hpos) hd

theorem readNumeral_padded (value : Nat) (hn : n < base ^ k) :
    readNumeral base value (paddedNumeral base k n) = value * base ^ k + n := by
  induction k generalizing n value with
  | zero =>
    rw [Nat.pow_zero, Nat.lt_one_iff] at hn
    rw [hn, Nat.pow_zero, Nat.mul_one]
    rfl
  | succ k ih =>
    have hpos : 0 < base ^ k := by
      rw [Nat.pow_succ] at hn
      exact Nat.pos_of_ne_zero fun h => by simp [h] at hn
    rw [paddedNumeral, readNumeral_cons, ih _ (Nat.mod_lt _ hpos)]
    calc (value * base + n / base ^ k) * base ^ k + n % base ^ k
      _ = value * base ^ (k + 1) + (base ^ k * (n / base ^ k) + n % base ^ k) := by ring
      _ = value * base ^ (k + 1) + n := by rw [Nat.div_add_mod]

/-- The digits of a number from a power of the base on that belongs to its first digit. -/
theorem numeral_eq_padded (hbase : 1 < base) (hlow : n ≠ 0 → base ^ k ≤ n)
    (hzero : n = 0 → k = 0) (hhigh : n < base ^ (k + 1)) :
    numeral base n = paddedNumeral base (k + 1) n := by
  unfold numeral
  split
  next hn =>
    rw [hn, hzero hn, paddedNumeral, paddedNumeral, Nat.zero_div]
  next hn =>
    have hvalue : Nat.ofDigits base (paddedNumeral base (k + 1) n).reverse = n := by
      rw [← readNumeral_reverse, List.reverse_reverse, readNumeral_padded 0 hhigh]
      simp
    have hdigits := Nat.digits_ofDigits base hbase (paddedNumeral base (k + 1) n).reverse
      (fun d hd => paddedNumeral_lt hhigh (List.mem_reverse.mp hd)) fun hne => by
        have hpos := Nat.div_pos (hlow hn) (Nat.pow_pos (Nat.zero_lt_of_lt hbase))
        simpa [paddedNumeral] using Nat.ne_of_gt hpos
    rw [hvalue] at hdigits
    rw [hdigits, List.reverse_reverse]

end Lib
