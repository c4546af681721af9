import Mathlib.Data.Nat.Bitwise

/-!
# Bit masks on naturals

The few facts about `&&&`, `|||` and shifts by constants that packed machine words need, on top
of Mathlib's `Nat.and_two_pow`: a value below a power of two has that bit clear
(`and_two_pow_of_lt`), and in general the mask reads a digit (`and_two_pow_eq`), and setting a clear bit, or shifting a high field over a low one, is
addition (`or_two_pow_of_lt`, `shiftLeft_or_of_lt`).
-/

set_option autoImplicit false

namespace Nat

/-- A single-bit mask reads the binary digit. -/
theorem and_two_pow_eq (x k : Nat) : x &&& 2 ^ k = x / 2 ^ k % 2 * 2 ^ k := by
  rw [Nat.and_two_pow, Nat.toNat_testBit]

theorem and_two_pow_eq_zero_iff (x k : Nat) : x &&& 2 ^ k = 0 ↔ x / 2 ^ k % 2 = 0 := by
  rw [and_two_pow_eq]
  constructor
  · intro h
    rcases Nat.mul_eq_zero.mp h with h | h
    · exact h
    · exact absurd h (Nat.two_pow_pos k).ne'
  · intro h
    rw [h, Nat.zero_mul]

theorem and_two_pow_of_lt {x k : Nat} (h : x < 2 ^ k) : x &&& 2 ^ k = 0 := by
  rw [and_two_pow_eq, Nat.div_eq_of_lt h]
  simp

theorem or_two_pow_of_lt {x k : Nat} (h : x < 2 ^ k) : x ||| 2 ^ k = x + 2 ^ k := by
  have := Nat.two_pow_add_eq_or_of_lt h 1
  rw [Nat.mul_one] at this
  rw [Nat.or_comm, ← this]
  omega

theorem shiftLeft_or_of_lt {a b k : Nat} (h : b < 2 ^ k) : a <<< k ||| b = a * 2 ^ k + b := by
  rw [← Nat.shiftLeft_add_eq_or_of_lt h, Nat.shiftLeft_eq]

end Nat
