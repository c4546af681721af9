import Mathlib.Data.Rat.Floor
import Mathlib.Tactic.FieldSimp

/-!
# Rounding an integer quotient

Division of integers that truncates towards zero (`Int.tdiv`) is the floor of the exact quotient
for a non-negative dividend and its ceiling for a non-positive one (`tdiv_eq_floor`,
`tdiv_eq_ceil`). The two differ by one exactly when the division leaves a remainder
(`floor_add_one_eq_ceil`, `floor_eq_ceil_of_dvd`), so a truncating quotient moved by one unit
in the right direction, when a remainder is seen, is the rounding asked for.

Rounding a natural number up to a multiple of `m` by adding `m - 1` and dropping the remainder
(`ceilMultiple`) gives the least multiple not below it: it is not below the number, it is a
multiple, it leaves a multiple as it is, and it is monotone.
-/

namespace Rounding

variable {m : ℤ} {d : ℕ}

theorem tdiv_eq_floor (hm : 0 ≤ m) : m.tdiv d = ⌊(m : ℚ) / d⌋ := by
  rw [Rat.floor_intCast_div_natCast, Int.tdiv_eq_ediv_of_nonneg hm]

theorem tdiv_eq_ceil (hm : m ≤ 0) : m.tdiv d = ⌈(m : ℚ) / d⌉ := by
  have h := tdiv_eq_floor (m := -m) (d := d) (neg_nonneg.mpr hm)
  rw [Int.neg_tdiv, Int.cast_neg, neg_div, Int.floor_neg, neg_inj] at h
  exact h

/-- An exact quotient is its own floor and ceiling. -/
theorem floor_eq_ceil_of_dvd (hd : 0 < d) (h : (d : ℤ) ∣ m) : ⌊(m : ℚ) / d⌋ = ⌈(m : ℚ) / d⌉ := by
  obtain ⟨k, rfl⟩ := h
  have hd' : (d : ℚ) ≠ 0 := by exact_mod_cast hd.ne'
  have hk : (((d : ℤ) * k : ℤ) : ℚ) / d = k := by
    push_cast
    field_simp
  rw [hk, Int.floor_intCast, Int.ceil_intCast]

/-- A quotient that leaves a remainder lies strictly between its floor and the next integer. -/
theorem floor_add_one_eq_ceil (hd : 0 < d) (h : ¬ (d : ℤ) ∣ m) : ⌊(m : ℚ) / d⌋ + 1 = ⌈(m : ℚ) / d⌉ := by
  rw [eq_comm, Int.ceil_eq_iff]
  push_cast
  refine ⟨?_, (Int.lt_floor_add_one _).le⟩
  rw [add_sub_cancel_right]
  apply lt_of_le_of_ne (Int.floor_le _)
  -- an integral quotient would make `d` divide `m`
  intro heq
  apply h
  have hd' : (d : ℚ) ≠ 0 := by exact_mod_cast hd.ne'
  have hm : (m : ℚ) = d * ⌊(m : ℚ) / d⌋ := by
    rw [heq]
    field_simp
  exact ⟨⌊(m : ℚ) / d⌋, by exact_mod_cast hm⟩

/-! ## Rounding up to a multiple -/

/-- `x` rounded up to a multiple of `m`: `x + m - 1` less its remainder. -/
def ceilMultiple (m x : ℕ) : ℕ := (x + m - 1) - (x + m - 1) % m

variable {m x y : ℕ}

theorem ceilMultiple_eq_mul (m x : ℕ) : ceilMultiple m x = m * ((x + m - 1) / m) := by
  have := Nat.div_add_mod (x + m - 1) m
  unfold ceilMultiple
  omega

theorem le_ceilMultiple (hm : 0 < m) : x ≤ ceilMultiple m x := by
  have := Nat.mod_lt (x + m - 1) hm
  unfold ceilMultiple
  omega

theorem dvd_ceilMultiple (m x : ℕ) : m ∣ ceilMultiple m x := Nat.dvd_sub_mod _

/-- A multiple is left as it is. -/
theorem ceilMultiple_of_dvd (hm : 0 < m) (h : m ∣ x) : ceilMultiple m x = x := by
  obtain ⟨k, rfl⟩ := h
  have hmod : (m * k + m - 1) % m = m - 1 := by
    rw [Nat.add_sub_assoc hm, Nat.mul_add_mod, Nat.mod_eq_of_lt (by omega)]
  unfold ceilMultiple
  omega

theorem ceilMultiple_mono (h : x ≤ y) : ceilMultiple m x ≤ ceilMultiple m y := by
  rw [ceilMultiple_eq_mul, ceilMultiple_eq_mul]
  exact Nat.mul_le_mul_left m (Nat.div_le_div_right (by omega))

/-- Below a multiple `n`, the rounding stays below `n`. -/
theorem ceilMultiple_le_of_dvd {n : ℕ} (hm : 0 < m) (hn : m ∣ n) (h : x ≤ n) : ceilMultiple m x ≤ n :=
  (ceilMultiple_mono h).trans (ceilMultiple_of_dvd hm hn).le

end Rounding
