import Mathlib.Algebra.Order.BigOperators.Group.Finset
import Mathlib.Algebra.BigOperators.Ring.Finset
import ChainSqld.Lib.FloorSum
import ChainSqld.TxQ.FeeMetrics

/-!
# The fee level of a series of transactions

Once an open ledger holds more transactions than the `t` expected, `FeeMetrics::scaleFeeLevel`
asks the `n`-th of them for the level `m n² / t²`, `m` the escalation multiplier.
`escalatedSeriesFeeLevel` asks a series of transactions of one account, to be applied at counts
`current` to `last`, for the level of the whole series at once: `m / t²` times the sum of the
squares from `current` to `last`, computed as the difference of two closed forms
`x (x + 1) (2x + 1) / 6` (`detail::sumOfFirstSquares`) in `std::size_t`, with counts from `2 ^ 21`
on refused.

* `sumOfFirstSquares_of_lt`: below `2 ^ 21` the triple product stays below `2 ^ 64`, so the closed
  form is computed exactly, and `sub_sumOfFirstSquares` the difference of two of them is the sum of
  the squares between;
* `scaleFeeLevel_of_gt`: above the expected count the level is `m n² / t²`, clipped to 64 bits;
* `escalated_series_fee_level`: for a series whose first count is above the expected one, the
  series level is exact, `m S / t²`, when the last count is below `2 ^ 21` and that quotient fits
  in 64 bits, and then lies between the sum of the levels `scaleFeeLevel` asks of each transaction
  and that sum plus `k - 1`.

The counts are natural numbers, as in `TxQ.FeeMetrics`; the products that the source computes in
`std::size_t` are taken modulo `2 ^ 64`.
-/

set_option autoImplicit false

namespace Ripple

namespace TxQ

namespace FeeMetrics

open Finset

/-- `FeeMetrics::scaleFeeLevel`, the open view entering through its transaction count: the base
level up to the expected count, the multiplier scaled by the square of the count over the square of
the expected count after it. -/
def scaleFeeLevel (snapshot : Snapshot) (txCount txCountPadding : Nat) : Except String UInt64 :=
  let current := txCount + txCountPadding
  let target := snapshot.txnsExpected
  let multiplier := snapshot.escalationMultiplier
  if current > target then
    (mulDiv multiplier (UInt64.ofNat (current * current)) (UInt64.ofNat (target * target))).map Prod.snd
  else .ok baseLevel

/-- `detail::sumOfFirstSquares`: the closed form of `∑ n ≤ x, n ²` in `std::size_t`, refused (and
the largest value) from `2 ^ 21` on. -/
def sumOfFirstSquares (x : Nat) : Bool × UInt64 :=
  if x ≥ 2 ^ 21 then (false, UInt64.ofNat (2 ^ 64 - 1))
  else (true, UInt64.ofNat (x * (x + 1) * (2 * x + 1)) / 6)

/-- `FeeMetrics::escalatedSeriesFeeLevel`: the level of a series of `seriesSize` transactions, the
first of which comes after `txCount + extraCount` transactions of the open ledger. -/
def escalatedSeriesFeeLevel (snapshot : Snapshot) (txCount extraCount seriesSize : Nat) :
    Except String (Bool × UInt64) :=
  let current := txCount + extraCount
  let last := current + seriesSize - 1
  let target := snapshot.txnsExpected
  let multiplier := snapshot.escalationMultiplier
  let sumNlast := sumOfFirstSquares last
  let sumNcurrent := sumOfFirstSquares (current - 1)
  if !sumNlast.1 then .ok sumNlast
  else mulDiv multiplier (sumNlast.2 - sumNcurrent.2) (UInt64.ofNat (target * target))

/-! ## The closed form -/

/-- **The guard is tight enough**: below `2 ^ 21` the triple product does not wrap; at
`x = 2 ^ 21 - 1` it is just below `2 ^ 64`. -/
theorem triple_lt {x : Nat} (hx : x < 2 ^ 21) : x * (x + 1) * (2 * x + 1) < 2 ^ 64 := by
  have h1 : x ≤ 2 ^ 21 - 1 := by omega
  calc x * (x + 1) * (2 * x + 1) ≤ (2 ^ 21 - 1) * (2 ^ 21 - 1 + 1) * (2 * (2 ^ 21 - 1) + 1) :=
        Nat.mul_le_mul (Nat.mul_le_mul h1 (by omega)) (by omega)
    _ < 2 ^ 64 := by decide

theorem sumOfFirstSquares_of_lt {x : Nat} (hx : x < 2 ^ 21) :
    (sumOfFirstSquares x).1 = true ∧ (sumOfFirstSquares x).2.toNat = x * (x + 1) * (2 * x + 1) / 6 := by
  have hfit := triple_lt hx
  unfold sumOfFirstSquares
  rw [if_neg (by omega)]
  refine ⟨rfl, ?_⟩
  rw [UInt64.toNat_div, UInt64.toNat_ofNat', Nat.mod_eq_of_lt hfit]
  rfl

theorem sumOfFirstSquares_of_le {x : Nat} (hx : 2 ^ 21 ≤ x) : (sumOfFirstSquares x).1 = false := by
  unfold sumOfFirstSquares
  rw [if_pos hx]

/-- The closed form at `x` is the sum of the squares up to `x`. -/
theorem toNat_sumOfFirstSquares {x : Nat} (hx : x < 2 ^ 21) :
    (sumOfFirstSquares x).2.toNat = ∑ i ∈ range (x + 1), i ^ 2 := by
  rw [(sumOfFirstSquares_of_lt hx).2, FloorSum.sum_range_sq]

/-- **The difference of two closed forms is the sum of the squares between**, with no wrap in the
`std::uint64_t` subtraction. -/
theorem sub_sumOfFirstSquares {c l : Nat} (hc : 1 ≤ c) (hcl : c ≤ l + 1) (hl : l < 2 ^ 21) :
    ((sumOfFirstSquares l).2 - (sumOfFirstSquares (c - 1)).2).toNat = ∑ i ∈ Icc c l, i ^ 2 := by
  have hc' : c - 1 < 2 ^ 21 := by omega
  have hle : ∑ i ∈ range (c - 1 + 1), i ^ 2 ≤ ∑ i ∈ range (l + 1), i ^ 2 :=
    sum_le_sum_of_subset (range_subset_range.mpr (by omega))
  rw [← toNat_sumOfFirstSquares hl, ← toNat_sumOfFirstSquares hc'] at hle
  rw [UInt64.toNat_sub_of_le _ _ (UInt64.le_iff_toNat_le.mpr hle), (sumOfFirstSquares_of_lt hl).2,
    (sumOfFirstSquares_of_lt hc').2, Nat.sub_add_cancel hc, ← FloorSum.sum_Ico_sq hc hcl,
    Ico_add_one_right_eq_Icc]

/-! ## The level of one transaction -/

/-- A square computed in `std::size_t` that fits is the square. -/
theorem toNat_ofNat_sq {t : Nat} (h : t * t < 2 ^ 64) : (UInt64.ofNat (t * t)).toNat = t ^ 2 := by
  rw [UInt64.toNat_ofNat', Nat.mod_eq_of_lt h, sq]

theorem ofNat_sq_ne_zero {t : Nat} (ht : 1 ≤ t) (h : t * t < 2 ^ 64) : UInt64.ofNat (t * t) ≠ 0 := by
  intro h0
  have h2 := congrArg UInt64.toNat h0
  rw [toNat_ofNat_sq h, UInt64.toNat_zero] at h2
  have h0' : t = 0 := pow_eq_zero_iff two_ne_zero |>.mp h2
  omega

/-- Above the expected count, with the squares within 64 bits, the level asked of the `n`-th
transaction is `m n² / t²`, clipped. -/
theorem scaleFeeLevel_of_gt (s : Snapshot) {n : Nat} (ht : 1 ≤ s.txnsExpected) (hn : s.txnsExpected < n)
    (hn' : n < 2 ^ 32) :
    scaleFeeLevel s n 0 =
      .ok (UInt64.ofNat (min (s.escalationMultiplier.toNat * n ^ 2 / s.txnsExpected ^ 2) (2 ^ 64 - 1))) := by
  have hsq : n * n < 2 ^ 64 := by
    calc n * n < 2 ^ 32 * 2 ^ 32 := Nat.mul_lt_mul'' hn' hn'
      _ = 2 ^ 64 := by norm_num
  have htsq : s.txnsExpected * s.txnsExpected < 2 ^ 64 := lt_of_le_of_lt (Nat.mul_le_mul hn.le hn.le) hsq
  unfold scaleFeeLevel
  simp only [Nat.add_zero]
  rw [if_pos hn, mulDiv_eq (ofNat_sq_ne_zero ht htsq), toNat_ofNat_sq hsq, toNat_ofNat_sq htsq]
  rfl

/-! ## The level of a series -/

section Series

variable (s : Snapshot) (c0 e k : Nat)

/-- The series level when the last count is refused. -/
theorem escalatedSeriesFeeLevel_of_le (hl : 2 ^ 21 ≤ c0 + e + k - 1) :
    escalatedSeriesFeeLevel s c0 e k = .ok (sumOfFirstSquares (c0 + e + k - 1)) := by
  unfold escalatedSeriesFeeLevel
  simp only [sumOfFirstSquares_of_le hl, Bool.not_false, if_true]

/-- The series level when the last count is below `2 ^ 21`: `mulDiv` of the multiplier, the sum of
the squares, and the square of the expected count. -/
theorem escalatedSeriesFeeLevel_of_lt (ht : 1 ≤ s.txnsExpected) (hk : 1 ≤ k) (hc : s.txnsExpected < c0 + e)
    (hl : c0 + e + k - 1 < 2 ^ 21) :
    escalatedSeriesFeeLevel s c0 e k =
      .ok (decide (s.escalationMultiplier.toNat * (∑ n ∈ Icc (c0 + e) (c0 + e + k - 1), n ^ 2) /
          s.txnsExpected ^ 2 < 2 ^ 64),
        UInt64.ofNat (min (s.escalationMultiplier.toNat * (∑ n ∈ Icc (c0 + e) (c0 + e + k - 1), n ^ 2) /
          s.txnsExpected ^ 2) (2 ^ 64 - 1))) := by
  -- the expected count is below the first count, so its square fits as well
  have htsq : s.txnsExpected * s.txnsExpected < 2 ^ 64 :=
    lt_of_le_of_lt (Nat.mul_le_mul (show s.txnsExpected ≤ 2 ^ 21 by omega) (show s.txnsExpected ≤ 2 ^ 21 by omega))
      (by decide)
  have hS : ((sumOfFirstSquares (c0 + e + k - 1)).2 - (sumOfFirstSquares (c0 + e - 1)).2).toNat =
      ∑ i ∈ Icc (c0 + e) (c0 + e + k - 1), i ^ 2 :=
    sub_sumOfFirstSquares (by omega) (by omega) hl
  unfold escalatedSeriesFeeLevel
  simp only [(sumOfFirstSquares_of_lt hl).1, Bool.not_true, Bool.false_eq_true, if_false]
  rw [mulDiv_eq (ofNat_sq_ne_zero ht htsq), hS, toNat_ofNat_sq htsq]

/-- **The series level is the sum of the per-transaction levels, up to rounding.** For a series of
`k ≥ 1` transactions whose first count `current = c0 + e` is above the expected count `t ≥ 1`, with
`last = current + k - 1` and `S` the sum of the squares from `current` to `last`: the level is
computed (flag `true`) exactly when `last < 2 ^ 21` and `m S / t²` fits in 64 bits, and is then
`m S / t²`; each transaction of the series would be asked `m n² / t²` by `scaleFeeLevel`, and the
series level is at least the sum of those and at most that sum plus `k - 1`. -/
theorem escalated_series_fee_level (ht : 1 ≤ s.txnsExpected) (hk : 1 ≤ k) (hc : s.txnsExpected < c0 + e) :
    ∃ r, escalatedSeriesFeeLevel s c0 e k = .ok r ∧
      (r.1 = true ↔ c0 + e + k - 1 < 2 ^ 21 ∧
        s.escalationMultiplier.toNat * (∑ n ∈ Icc (c0 + e) (c0 + e + k - 1), n ^ 2) / s.txnsExpected ^ 2 < 2 ^ 64) ∧
      (r.1 = true →
        r.2.toNat = s.escalationMultiplier.toNat * (∑ n ∈ Icc (c0 + e) (c0 + e + k - 1), n ^ 2) /
          s.txnsExpected ^ 2 ∧
        (∀ n ∈ Icc (c0 + e) (c0 + e + k - 1),
          scaleFeeLevel s n 0 = .ok (UInt64.ofNat (s.escalationMultiplier.toNat * n ^ 2 / s.txnsExpected ^ 2))) ∧
        ∑ n ∈ Icc (c0 + e) (c0 + e + k - 1), s.escalationMultiplier.toNat * n ^ 2 / s.txnsExpected ^ 2 ≤ r.2.toNat ∧
        r.2.toNat ≤
          ∑ n ∈ Icc (c0 + e) (c0 + e + k - 1), s.escalationMultiplier.toNat * n ^ 2 / s.txnsExpected ^ 2 + (k - 1)) := by
  by_cases hl : c0 + e + k - 1 < 2 ^ 21
  · rw [escalatedSeriesFeeLevel_of_lt s c0 e k ht hk hc hl]
    refine ⟨_, rfl, ⟨fun h => ⟨hl, of_decide_eq_true h⟩, fun h => decide_eq_true h.2⟩, fun hfit => ?_⟩
    simp only [decide_eq_true_eq] at hfit
    -- the series level fits: it is the exact quotient
    have hv : (UInt64.ofNat (min (s.escalationMultiplier.toNat * (∑ n ∈ Icc (c0 + e) (c0 + e + k - 1), n ^ 2) /
        s.txnsExpected ^ 2) (2 ^ 64 - 1))).toNat =
        s.escalationMultiplier.toNat * (∑ n ∈ Icc (c0 + e) (c0 + e + k - 1), n ^ 2) / s.txnsExpected ^ 2 := by
      rw [toNat_ofNat_min, min_eq_left (by omega)]
    rw [hv]
    have hsum : s.escalationMultiplier.toNat * (∑ n ∈ Icc (c0 + e) (c0 + e + k - 1), n ^ 2) =
        ∑ n ∈ Icc (c0 + e) (c0 + e + k - 1), s.escalationMultiplier.toNat * n ^ 2 := mul_sum _ _ _
    have hcard : (Icc (c0 + e) (c0 + e + k - 1)).card = k := by
      rw [Nat.card_Icc]
      omega
    refine ⟨rfl, fun n hn => ?_, ?_, ?_⟩
    · -- each term is at most the series level, so it is not clipped either
      obtain ⟨hn1, hn2⟩ := mem_Icc.mp hn
      have hterm : s.escalationMultiplier.toNat * n ^ 2 / s.txnsExpected ^ 2 ≤
          s.escalationMultiplier.toNat * (∑ n ∈ Icc (c0 + e) (c0 + e + k - 1), n ^ 2) / s.txnsExpected ^ 2 :=
        Nat.div_le_div_right (Nat.mul_le_mul_left _ (single_le_sum (fun i _ => Nat.zero_le (i ^ 2)) hn))
      rw [scaleFeeLevel_of_gt s ht (by omega) (by omega), min_eq_left (by omega)]
    · rw [hsum]
      exact FloorSum.sum_div_le_div_sum _ _ _
    · have hup := FloorSum.div_sum_le_sum_div_add (fun n => s.escalationMultiplier.toNat * n ^ 2)
        (s.txnsExpected ^ 2) (Icc (c0 + e) (c0 + e + k - 1))
      rw [hcard] at hup
      rw [hsum]
      exact hup
  · rw [escalatedSeriesFeeLevel_of_le s c0 e k (by omega)]
    -- the last count is refused: the flag is `false`
    have hf : (sumOfFirstSquares (c0 + e + k - 1)).1 = false := sumOfFirstSquares_of_le (by omega)
    refine ⟨_, rfl, ⟨fun h => ?_, fun h => absurd h.1 hl⟩, fun h => ?_⟩
    · rw [hf] at h
      exact absurd h Bool.false_ne_true
    · rw [hf] at h
      exact absurd h Bool.false_ne_true

/-- Two transactions at counts `3` and `4` with two expected and multiplier `256` are asked
`256 · (9 + 16) / 4 = 1600` together. -/
theorem escalated_series_fee_level_two :
    escalatedSeriesFeeLevel ⟨2, 256⟩ 3 0 2 = .ok (true, 1600) := by
  obtain ⟨r, hr, hiff, hval⟩ := escalated_series_fee_level ⟨2, 256⟩ 3 0 2 (by decide) (by decide) (by decide)
  have hsum : ∑ n ∈ Icc (3 + 0) (3 + 0 + 2 - 1), n ^ 2 = 25 := by decide
  have h1 : r.1 = true := hiff.mpr ⟨by decide, by rw [hsum]; decide⟩
  have h2 : r.2.toNat = 1600 := by
    rw [(hval h1).1, hsum]
    decide
  rw [hr]
  exact congrArg Except.ok (Prod.ext h1 (UInt64.toNat_inj.mp h2))

end Series

end FeeMetrics

end TxQ

end Ripple
