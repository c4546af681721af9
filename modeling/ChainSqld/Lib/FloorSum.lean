import Mathlib.Algebra.BigOperators.Intervals
import Mathlib.Data.Nat.ModEq
import Mathlib.Tactic.Ring

/-!
# Sums of squares and sums of quotients

Two facts of natural-number arithmetic that a charge computed for a whole series at once, rather
than item by item, rests on:

* `sum_range_sq_mul_six`: six times `∑ i ≤ x, i ^ 2` is `x (x + 1) (2x + 1)`, so the closed form
  divides exactly (`sum_range_sq`), and `sum_Ico_sq` the sum over an interval as a difference of
  two closed forms;
* `sum_div_le_div_sum`, `div_sum_le_sum_div_add`: the quotient of a sum of `k` terms lies between
  the sum of the quotients and that sum plus `k - 1`.
-/

set_option autoImplicit false

namespace FloorSum

open Finset

/-- **The sum of the first squares**, times six. -/
theorem sum_range_sq_mul_six : ∀ x : Nat, (∑ i ∈ range (x + 1), i ^ 2) * 6 = x * (x + 1) * (2 * x + 1)
  | 0 => rfl
  | x + 1 => by
    rw [sum_range_succ, Nat.add_mul, sum_range_sq_mul_six x]
    ring

theorem sum_range_sq (x : Nat) : ∑ i ∈ range (x + 1), i ^ 2 = x * (x + 1) * (2 * x + 1) / 6 := by
  rw [← sum_range_sq_mul_six, Nat.mul_div_cancel _ (by decide)]

/-- The squares from `c` to `l` are the first `l` squares less the first `c - 1`. -/
theorem sum_Ico_sq {c l : Nat} (hc : 1 ≤ c) (hcl : c ≤ l + 1) :
    ∑ i ∈ Ico c (l + 1), i ^ 2 = (l * (l + 1) * (2 * l + 1)) / 6 - ((c - 1) * c * (2 * (c - 1) + 1)) / 6 := by
  have hsplit := sum_Ico_consecutive (fun i => i ^ 2) (Nat.zero_le c) hcl
  rw [← range_eq_Ico, ← range_eq_Ico] at hsplit
  have hfirst := sum_range_sq (c - 1)
  rw [Nat.sub_add_cancel hc] at hfirst
  rw [← sum_range_sq l, ← hsplit, ← hfirst, Nat.add_sub_cancel_left]

section Quotients

variable {ι : Type} [DecidableEq ι] (f : ι → Nat) (d : Nat)

/-- The sum of the quotients is at most the quotient of the sum. -/
theorem sum_div_le_div_sum (s : Finset ι) : ∑ i ∈ s, f i / d ≤ (∑ i ∈ s, f i) / d := by
  induction s using Finset.induction_on with
  | empty => simp
  | insert a s ha ih =>
    rw [sum_insert ha, sum_insert ha]
    exact (Nat.add_le_add_left ih _).trans Nat.div_add_div_le_add_div

/-- Each term beyond the first adds at most one to the quotient of the sum. -/
theorem div_sum_le_sum_div_add (s : Finset ι) : (∑ i ∈ s, f i) / d ≤ ∑ i ∈ s, f i / d + (s.card - 1) := by
  induction s using Finset.induction_on with
  | empty => simp
  | insert a s ha ih =>
    rw [sum_insert ha, sum_insert ha, card_insert_of_notMem ha]
    have hstep := Nat.add_div_le_div_add_div_add_one (f a) (∑ i ∈ s, f i) d
    rcases s.eq_empty_or_nonempty with rfl | hne
    · simp
    · have hcard := hne.card_pos
      calc (f a + ∑ i ∈ s, f i) / d ≤ f a / d + (∑ i ∈ s, f i) / d + 1 := hstep
        _ ≤ f a / d + (∑ i ∈ s, f i / d + (s.card - 1)) + 1 := by omega
        _ = f a / d + ∑ i ∈ s, f i / d + (s.card + 1 - 1) := by omega

end Quotients

end FloorSum
