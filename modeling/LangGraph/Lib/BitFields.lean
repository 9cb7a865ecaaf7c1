import Mathlib.Data.Nat.Bitwise

/- Numbers that are packed from bit fields.

   `2 ^ s * a + b` with `b < 2 ^ s` has the field `b` in its low `s` bits and `a` above
   them. The operations with a mask that is shifted by `s` act on `a` alone
   (`ldiff_shiftLeft`, `or_shiftLeft`), those with a mask of `s` bits on `b` alone
   (`ldiff_low`, `or_low`), so that packing and patching reduce to arithmetic. -/
namespace BitFields

theorem shiftLeft_or {b s : Nat} (hb : b < 2 ^ s) (a : Nat) : a <<< s ||| b = 2 ^ s * a + b := by
  rw [← Nat.shiftLeft_add_eq_or_of_lt hb, Nat.shiftLeft_eq, Nat.mul_comm]

theorem or_shiftLeft {b s : Nat} (hb : b < 2 ^ s) (a m : Nat) :
    (2 ^ s * a + b) ||| m <<< s = 2 ^ s * (a ||| m) + b := by
  apply Nat.eq_of_testBit_eq
  intro i
  rw [Nat.testBit_or, Nat.testBit_two_pow_mul_add a hb, Nat.testBit_two_pow_mul_add (a ||| m) hb,
    Nat.testBit_shiftLeft]
  by_cases hi : i < s
  · simp [hi]
  · simp [hi, not_lt.mp hi]

theorem ldiff_shiftLeft {b s : Nat} (hb : b < 2 ^ s) (a m : Nat) :
    Nat.ldiff (2 ^ s * a + b) (m <<< s) = 2 ^ s * Nat.ldiff a m + b := by
  apply Nat.eq_of_testBit_eq
  intro i
  rw [Nat.testBit_ldiff, Nat.testBit_two_pow_mul_add a hb,
    Nat.testBit_two_pow_mul_add (Nat.ldiff a m) hb, Nat.testBit_shiftLeft]
  by_cases hi : i < s
  · simp [hi]
  · simp [hi, not_lt.mp hi, Nat.testBit_ldiff]

theorem or_low {b m s : Nat} (hb : b < 2 ^ s) (hm : m < 2 ^ s) (a : Nat) :
    (2 ^ s * a + b) ||| m = 2 ^ s * a + (b ||| m) := by
  apply Nat.eq_of_testBit_eq
  intro i
  rw [Nat.testBit_or, Nat.testBit_two_pow_mul_add a hb,
    Nat.testBit_two_pow_mul_add a (Nat.or_lt_two_pow hb hm)]
  by_cases hi : i < s
  · simp [hi]
  · have hmi : m.testBit i = false :=
      Nat.testBit_lt_two_pow (lt_of_lt_of_le hm (Nat.pow_le_pow_right (by decide) (not_lt.mp hi)))
    simp [hi, hmi]

theorem ldiff_lt {b s : Nat} (hb : b < 2 ^ s) (m : Nat) : Nat.ldiff b m < 2 ^ s := by
  apply Nat.lt_pow_two_of_testBit
  intro i hi
  rw [Nat.testBit_ldiff,
    Nat.testBit_lt_two_pow (lt_of_lt_of_le hb (Nat.pow_le_pow_right (by decide) hi)), Bool.false_and]

theorem ldiff_low {b m s : Nat} (hb : b < 2 ^ s) (hm : m < 2 ^ s) (a : Nat) :
    Nat.ldiff (2 ^ s * a + b) m = 2 ^ s * a + Nat.ldiff b m := by
  apply Nat.eq_of_testBit_eq
  intro i
  rw [Nat.testBit_ldiff, Nat.testBit_two_pow_mul_add a hb,
    Nat.testBit_two_pow_mul_add a (ldiff_lt hb m)]
  by_cases hi : i < s
  · simp [hi, Nat.testBit_ldiff]
  · have hmi : m.testBit i = false :=
      Nat.testBit_lt_two_pow (lt_of_lt_of_le hm (Nat.pow_le_pow_right (by decide) (not_lt.mp hi)))
    simp [hi, hmi]

/-- A mask of bits from `s` on does not meet a field of `s` bits. -/
theorem ldiff_of_lt {b s : Nat} (hb : b < 2 ^ s) (m : Nat) : Nat.ldiff b (m <<< s) = b := by
  have h := ldiff_shiftLeft hb 0 m
  rw [Nat.mul_zero, Nat.zero_add] at h
  have hz : Nat.ldiff 0 m = 0 := Nat.zero_of_testBit_eq_false fun i => by
    rw [Nat.testBit_ldiff, Nat.zero_testBit, Bool.false_and]
  rw [h, hz, Nat.mul_zero, Nat.zero_add]

theorem or_of_lt {b s : Nat} (hb : b < 2 ^ s) (m : Nat) : b ||| m <<< s = 2 ^ s * m + b := by
  rw [Nat.or_comm, shiftLeft_or hb]

end BitFields
