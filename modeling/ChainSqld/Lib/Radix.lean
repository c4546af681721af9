import Mathlib.Data.Nat.Digits.Lemmas

/-!
# Changing the base of a number in a fixed buffer

A base conversion by hand keeps the number in a buffer of digits of a fixed length and feeds it the
input digits one at a time, most significant first: `buffer = buffer * m + x`, the carry moving
from the least significant digit up. Here a buffer is held least significant digit first, so that
`Nat.ofDigits B` is its value.

* `mulAdd_value`: one pass leaves `c + m * value` in the buffer and the carry out of its top;
* `convert_value`: after the whole input, the buffer holds the input's value as long as the value
  fits; the carry out of the top is dropped;
* `strip_eq`: the buffer read most significant digit first without its leading zeros is the list
  of digits of its value;
* `digits_ofDigits_reverse`: a digit list without leading zeros is the list of digits of its value,
  and `digits_reverse_spec` the converse.
-/

set_option autoImplicit false

namespace Radix

section Conversion

variable (m B : Nat)

/-- One pass of `carry += m * d; d = carry % B; carry /= B` over a buffer, least significant digit
first: the new buffer and the carry out of its top. -/
def mulAdd : Nat → List Nat → List Nat × Nat
  | c, [] => ([], c)
  | c, d :: ds =>
    let t := c + m * d
    let r := mulAdd (t / B) ds
    (t % B :: r.1, r.2)

/-- The input digits, most significant first, multiplied into the buffer one after another, with
the carry out of the top dropped. -/
def convert (buf input : List Nat) : List Nat :=
  input.foldl (fun b x => (mulAdd m B x b).1) buf

/-- The value of digits read most significant first. -/
def valueBE (input : List Nat) : Nat := Nat.ofDigits m input.reverse

variable {m B}

@[simp] theorem length_mulAdd : ∀ (c : Nat) (ds : List Nat), (mulAdd m B c ds).1.length = ds.length
  | _, [] => rfl
  | c, _ :: ds => by simp [mulAdd, length_mulAdd _ ds]

theorem mulAdd_lt (hB : 0 < B) : ∀ (c : Nat) (ds : List Nat), ∀ d ∈ (mulAdd m B c ds).1, d < B
  | _, [] => by simp [mulAdd]
  | c, d :: ds => by
    intro x hx
    simp only [mulAdd, List.mem_cons] at hx
    rcases hx with rfl | hx
    · exact Nat.mod_lt _ hB
    · exact mulAdd_lt hB _ ds x hx

/-- One pass computes `c + m * value`: the buffer holds it below `B ^ length`, the carry above. -/
theorem mulAdd_value : ∀ (c : Nat) (ds : List Nat),
    Nat.ofDigits B (mulAdd m B c ds).1 + B ^ ds.length * (mulAdd m B c ds).2 = c + m * Nat.ofDigits B ds
  | c, [] => by simp [mulAdd, Nat.ofDigits_nil]
  | c, d :: ds => by
    have ih := mulAdd_value ((c + m * d) / B) ds
    have hdiv := Nat.mod_add_div (c + m * d) B
    simp only [mulAdd, Nat.ofDigits_cons, List.length_cons, pow_succ]
    calc (c + m * d) % B + B * Nat.ofDigits B (mulAdd m B ((c + m * d) / B) ds).1 +
          B ^ ds.length * B * (mulAdd m B ((c + m * d) / B) ds).2
        = (c + m * d) % B + B * (Nat.ofDigits B (mulAdd m B ((c + m * d) / B) ds).1 +
          B ^ ds.length * (mulAdd m B ((c + m * d) / B) ds).2) := by ring
      _ = (c + m * d) % B + B * ((c + m * d) / B + m * Nat.ofDigits B ds) := by rw [ih]
      _ = c + m * (d + B * Nat.ofDigits B ds) := by
        rw [Nat.mul_add, ← Nat.add_assoc, hdiv]
        ring

/-- When `c + m * value` fits in the buffer, nothing is carried out of it. -/
theorem mulAdd_carry {c : Nat} {ds : List Nat} (h : c + m * Nat.ofDigits B ds < B ^ ds.length) :
    (mulAdd m B c ds).2 = 0 ∧ Nat.ofDigits B (mulAdd m B c ds).1 = c + m * Nat.ofDigits B ds := by
  have hv := mulAdd_value (m := m) (B := B) c ds
  have hc : (mulAdd m B c ds).2 = 0 := by
    by_contra hne
    have : B ^ ds.length ≤ B ^ ds.length * (mulAdd m B c ds).2 :=
      Nat.le_mul_of_pos_right _ (Nat.pos_of_ne_zero hne)
    omega
  rw [hc, Nat.mul_zero, Nat.add_zero] at hv
  exact ⟨hc, hv⟩

theorem valueBE_cons (x : Nat) (xs : List Nat) : valueBE m (x :: xs) = valueBE m xs + m ^ xs.length * x := by
  rw [valueBE, Nat.ofDigits_reverse_cons]
  rfl

/-- **The buffer ends up holding the input.** From a buffer of digits below `B` whose value, shifted
by the input and plus it, still fits, `convert` leaves that number, in a buffer of the same length
and digits below `B`; for a zeroed buffer it is the value of the input. -/
theorem convert_value (hm : 0 < m) (hB : 1 < B) : ∀ (input buf : List Nat), (∀ d ∈ buf, d < B) →
    Nat.ofDigits B buf * m ^ input.length + valueBE m input < B ^ buf.length →
    Nat.ofDigits B (convert m B buf input) = Nat.ofDigits B buf * m ^ input.length + valueBE m input ∧
      (convert m B buf input).length = buf.length ∧ ∀ d ∈ convert m B buf input, d < B
  | [], buf, hbuf, _ => ⟨by simp [convert, valueBE], rfl, hbuf⟩
  | x :: xs, buf, hbuf, hfit => by
    rw [valueBE_cons] at hfit ⊢
    -- the pass that takes `x` fits: its result is no more than the final number
    have hmx : 1 ≤ m ^ xs.length := Nat.one_le_pow _ _ hm
    have hstep : x + m * Nat.ofDigits B buf < B ^ buf.length := by
      have : (x + m * Nat.ofDigits B buf) * 1 ≤ (x + m * Nat.ofDigits B buf) * m ^ xs.length :=
        Nat.mul_le_mul_left _ hmx
      have heq : (x + m * Nat.ofDigits B buf) * m ^ xs.length =
          Nat.ofDigits B buf * m ^ (xs.length + 1) + m ^ xs.length * x := by ring
      have := Nat.le_add_left ((x + m * Nat.ofDigits B buf) * m ^ xs.length) (valueBE m xs)
      simp only [List.length_cons] at hfit
      omega
    obtain ⟨-, hval⟩ := mulAdd_carry hstep
    have hlen := length_mulAdd (m := m) (B := B) x buf
    have hrest := convert_value hm hB xs (mulAdd m B x buf).1 (mulAdd_lt (by omega) x buf) (by
      rw [hval, hlen]
      simp only [List.length_cons] at hfit
      calc (x + m * Nat.ofDigits B buf) * m ^ xs.length + valueBE m xs
          = Nat.ofDigits B buf * m ^ (xs.length + 1) + (valueBE m xs + m ^ xs.length * x) := by ring
        _ < B ^ buf.length := hfit)
    obtain ⟨hv, hl, hd⟩ := hrest
    refine ⟨?_, hl.trans hlen, hd⟩
    simp only [convert, List.foldl_cons] at hv ⊢
    rw [hv, hval]
    simp only [List.length_cons]
    ring

end Conversion

/-! ## Reading a buffer without its leading zeros -/

section Strip

variable {B : Nat}

/-- **The buffer, most significant digit first, without its leading zeros, is the digit list of its
value.** -/
theorem strip_eq (hB : 1 < B) : ∀ buf : List Nat, (∀ d ∈ buf, d < B) →
    buf.reverse.dropWhile (· = 0) = (Nat.digits B (Nat.ofDigits B buf)).reverse
  | [], _ => by simp
  | d :: ds, hbuf => by
    have hd : d < B := hbuf d List.mem_cons_self
    have ih := strip_eq hB ds (fun x hx => hbuf x (List.mem_cons_of_mem d hx))
    rw [List.reverse_cons, List.dropWhile_append, ih, Nat.ofDigits_cons]
    by_cases h0 : Nat.ofDigits B ds = 0
    · -- the rest is zero: only `d` can remain
      rw [h0, Nat.digits_zero]
      by_cases hd0 : d = 0
      · subst hd0
        simp
      · simp [hd0, Nat.digits_of_lt B d hd0 hd]
    · have hne : Nat.digits B (Nat.ofDigits B ds) ≠ [] := Nat.digits_ne_nil_iff_ne_zero.mpr h0
      rw [Nat.digits_add B hB d _ hd (Or.inr h0)]
      simp [hne]

/-- A digit list most significant first, without leading zeros, is the digit list of its value. -/
theorem digits_ofDigits_reverse (hB : 1 < B) (xs : List Nat) (hxs : ∀ d ∈ xs, d < B)
    (hhead : xs.head? ≠ some 0) : (Nat.digits B (Nat.ofDigits B xs.reverse)).reverse = xs := by
  cases xs with
  | nil => simp
  | cons x xs =>
    have hx : x ≠ 0 := fun h => hhead (by simp [h])
    rw [Nat.digits_ofDigits B hB _ (fun d hd => hxs d (List.mem_reverse.mp hd)) (by simp [hx]),
      List.reverse_reverse]

/-- The digits of a number, most significant first, are digits below the base that do not start
with zero. -/
theorem digits_reverse_spec (hB : 1 < B) (V : Nat) :
    (∀ d ∈ (Nat.digits B V).reverse, d < B) ∧ ∀ d, (Nat.digits B V).reverse.head? = some d → d ≠ 0 := by
  refine ⟨fun d hd => Nat.digits_lt_base hB (List.mem_reverse.mp hd), fun d hd => ?_⟩
  rw [List.head?_reverse] at hd
  by_cases hV : V = 0
  · simp [hV] at hd
  · rw [List.getLast?_eq_some_getLast (Nat.digits_ne_nil_iff_ne_zero.mpr hV), Option.some.injEq] at hd
    rw [← hd]
    exact Nat.getLast_digit_ne_zero B hV

end Strip

end Radix
