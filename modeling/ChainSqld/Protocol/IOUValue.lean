import ChainSqld.Protocol.IOUAgreement
import ChainSqld.Lib.TruncSum

/-!
# Issued amounts that are not negative, as numbers of sixteen digits

An `IOUAmount` that is not negative stands for a whole number of units of `10 ^ minExponent`,
`val`: its mantissa of sixteen digits at the place its exponent gives. On such amounts the
arithmetic of `IOUAmount` is that of numbers kept to sixteen decimal digits (`TruncSum`):

* `plus_nonneg`: the sum of two amounts is their exact sum kept to sixteen digits, as long as that
  is not above the largest amount;
* `minus_le`: `T - S`, for `S ≤ T`, is at most `T` less `S` cut at the place of `T`'s last digit,
  since `S` is aligned to `T` by truncation;
* `lessThan_nonneg`: the order is that of the values;
* `foldlM_plus`: summing a list with `plus`, from its first amount, is summing the values with
  every partial sum kept to sixteen digits.
-/

set_option autoImplicit false

namespace Ripple

namespace IOUAmount

open TruncSum

/-- `operator-()`: the mantissa negated, through the constructor, which normalizes. -/
def neg (a : IOUAmount) : Except String IOUAmount := normalize (-a.mantissa) a.exponent

/-- `operator-`, which `boost::additive` builds from `operator-=`: the left operand plus the right
one negated. -/
def minus (a other : IOUAmount) : Except String IOUAmount := do
  let n ← other.neg
  a.plus n

/-- A positive normalized amount: a mantissa of sixteen digits at an exponent in range. -/
structure Pos (a : IOUAmount) : Prop where
  min_le : minMantissa ≤ a.mantissa
  le_max : a.mantissa ≤ maxMantissa
  exp_ge : minExponent ≤ a.exponent
  exp_le : a.exponent ≤ maxExponent

/-- A normalized amount that is not negative. -/
def Nonneg (a : IOUAmount) : Prop := a = zero ∨ a.Pos

/-- The place of the last digit of an amount, counted from `minExponent`. -/
def place (a : IOUAmount) : Nat := (a.exponent - minExponent).toNat

/-- The value of an amount that is not negative, in units of `10 ^ minExponent`. -/
def val (a : IOUAmount) : Nat := a.mantissa.toNat * 10 ^ a.place

@[simp] theorem val_zero : val zero = 0 := rfl

section Positive

variable {a : IOUAmount}

theorem Pos.ne_zero (h : a.Pos) : a ≠ zero := by
  rintro rfl
  exact absurd h.min_le (by decide)

theorem Pos.normalized (h : a.Pos) : a.Normalized := by
  obtain ⟨m, e⟩ := a
  exact Normalized.pos h.min_le h.le_max h.exp_ge h.exp_le

/-- The sixteen digits of a positive amount. -/
theorem Pos.digits (h : a.Pos) : 10 ^ 15 ≤ a.mantissa.toNat ∧ a.mantissa.toNat < 10 ^ 16 := by
  have h1 := h.min_le
  have h2 := h.le_max
  unfold minMantissa at h1
  unfold maxMantissa at h2
  omega

theorem Pos.place_le (h : a.Pos) : a.place ≤ 176 := by
  have := h.exp_le
  unfold place minExponent
  unfold maxExponent at this
  omega

theorem Pos.level_val (h : a.Pos) : level 10 16 (val a) = a.place := by
  have hl := level_mul_add (b := 10) (D := 16) (k := a.place) (r := 0) (by decide) h.digits.1 h.digits.2 (Nat.pow_pos (by decide))
  rwa [Nat.add_zero] at hl

theorem Pos.chop_val (h : a.Pos) : chop 10 16 (val a) = val a := by
  have hc := chop_mul_add (b := 10) (D := 16) (k := a.place) (r := 0) (by decide) (by decide) h.digits.1 h.digits.2
    (Nat.pow_pos (by decide))
  rwa [Nat.add_zero] at hc

/-- A positive amount is at least the unit of its last place times `10 ^ 15`, and below that
times `10 ^ 16`. -/
theorem Pos.val_bounds (h : a.Pos) : 10 ^ (15 + a.place) ≤ val a ∧ val a < 10 ^ (16 + a.place) := by
  rw [Nat.pow_add, Nat.pow_add]
  exact ⟨Nat.mul_le_mul_right _ h.digits.1, Nat.mul_lt_mul_of_pos_right h.digits.2 (Nat.pow_pos (by decide))⟩

/-- Sixteen digits at an exponent in range make a positive amount. -/
theorem pos_mk {m : Nat} {e : Int} (hm : 10 ^ 15 ≤ m) (hm' : m < 10 ^ 16) (he : minExponent ≤ e)
    (he' : e ≤ maxExponent) : Pos ⟨m, e⟩ :=
  ⟨by unfold minMantissa; dsimp only; omega, by unfold maxMantissa; dsimp only; omega, he, he'⟩

end Positive

theorem Nonneg.chop_val {a : IOUAmount} (h : a.Nonneg) : chop 10 16 (val a) = val a := by
  rcases h with rfl | h
  · rfl
  · exact h.chop_val

theorem Nonneg.normalized {a : IOUAmount} (h : a.Nonneg) : a.Normalized := by
  rcases h with rfl | h
  · exact Normalized.zero
  · exact h.normalized

/-! ## Adding -/

/-- `normalize` of a sum of sixteen or seventeen digits at an exponent in range: the sixteen
leading digits, one place up when there are seventeen. -/
theorem normalize_sum {S : Nat} {E : Int} (hS : 10 ^ 15 ≤ S) (hS' : S < 10 ^ 17) (hE : minExponent ≤ E)
    (hE' : E ≤ maxExponent) (hfit : S < 10 ^ 16 ∨ E < maxExponent) :
    normalize S E = .ok (if S < 10 ^ 16 then ⟨S, E⟩ else ⟨(S / 10 : Nat), E + 1⟩) := by
  have hmin : minMantissa ≤ (S : Int) := by unfold minMantissa; omega
  by_cases h16 : S < 10 ^ 16
  · rw [if_pos h16]
    have hmax : (S : Int) ≤ maxMantissa := by unfold maxMantissa; omega
    simpa using normalize_of_range (m := (S : Int)) false hmin hmax hE hE'
  · -- seventeen digits: `shrinkLoop` divides once, which `E < maxExponent` allows
    rw [if_neg h16]
    have hE80 : E < maxExponent := hfit.resolve_left h16
    have hfuel : (maxExponent - E).toNat = (maxExponent - E - 1).toNat + 1 := by omega
    have hdiv : ((S : Int) / 10) = ((S / 10 : Nat) : Int) := by omega
    have hshrink : shrinkLoop (maxExponent - E).toNat S E = .ok ((S / 10 : Nat), E + 1) := by
      rw [hfuel, shrinkLoop, if_pos (by unfold maxMantissa; omega), if_neg (by omega), hdiv,
        shrinkLoop_of_le (by unfold maxMantissa; omega)]
    have hpos : (S : Int) ≠ 0 := by omega
    have hneg : ¬((S : Int) < 0) := by omega
    have hlow : ¬(E + 1 < minExponent ∨ ((S / 10 : Nat) : Int) < minMantissa) := by
      unfold minMantissa; omega
    have hhigh : ¬(E + 1 > maxExponent) := by omega
    simp only [normalize, hpos, hneg, if_false, growLoop_of_le hmin, hshrink]
    simp only [hlow, hhigh, if_false]

/-- Aligning a mantissa `k` up by `n` places truncates it to `k / 10 ^ n`. -/
theorem raiseTo_natCast (e : Int) : ∀ (n k : Nat) (x : Int), x + n = e →
    raiseTo e n (k : Int) x = (((k / 10 ^ n : Nat) : Int), e)
  | 0, k, x, h => by
    simp only [raiseTo, Nat.pow_zero, Nat.div_one, Prod.mk.injEq, true_and]
    omega
  | n + 1, k, x, h => by
    have htdiv : (k : Int).tdiv 10 = ((k / 10 : Nat) : Int) := by
      rw [Int.tdiv_eq_ediv_of_nonneg (by omega)]
      omega
    simp only [raiseTo]
    rw [if_pos (by omega), htdiv, raiseTo_natCast e n (k / 10) (x + 1) (by omega),
      Nat.div_div_eq_div_mul, Nat.pow_succ']

/-- Aligning a negative mantissa `-k` up by `n` places truncates towards zero, to `-(k / 10 ^ n)`. -/
theorem raiseTo_neg_natCast (e : Int) : ∀ (n k : Nat) (x : Int), x + n = e →
    raiseTo e n (-(k : Int)) x = (-((k / 10 ^ n : Nat) : Int), e)
  | 0, k, x, h => by
    simp only [raiseTo, Nat.pow_zero, Nat.div_one, Prod.mk.injEq, true_and]
    omega
  | n + 1, k, x, h => by
    have htdiv : (-(k : Int)).tdiv 10 = -((k / 10 : Nat) : Int) := by
      rw [Int.neg_tdiv, Int.tdiv_eq_ediv_of_nonneg (by omega)]
      omega
    simp only [raiseTo]
    rw [if_pos (by omega), htdiv, raiseTo_neg_natCast e n (k / 10) (x + 1) (by omega),
      Nat.div_div_eq_div_mul, Nat.pow_succ']

/-- Aligning to an exponent not above the mantissa's own leaves it. -/
theorem raiseTo_of_le {e x : Int} (h : e ≤ x) (n : Nat) (m : Int) : raiseTo e n m x = (m, x) := by
  cases n with
  | zero => rfl
  | succ n =>
    simp only [raiseTo]
    rw [if_neg (not_lt.mpr h)]

/-- The two values of a sum, the one of lower place split at the other's place. -/
theorem val_add_split {Mhi Mlo plo d : Nat} :
    Mhi * 10 ^ (plo + d) + Mlo * 10 ^ plo =
      (Mlo / 10 ^ d + Mhi) * 10 ^ (plo + d) + Mlo % 10 ^ d * 10 ^ plo := by
  have hsplit := Nat.div_add_mod Mlo (10 ^ d)
  calc Mhi * 10 ^ (plo + d) + Mlo * 10 ^ plo
      = Mhi * 10 ^ (plo + d) + (10 ^ d * (Mlo / 10 ^ d) + Mlo % 10 ^ d) * 10 ^ plo := by rw [hsplit]
    _ = (Mlo / 10 ^ d + Mhi) * 10 ^ (plo + d) + Mlo % 10 ^ d * 10 ^ plo := by
      rw [Nat.pow_add]
      ring

/-- Two positive amounts added at the higher place `plo + d`, the other aligned up by `d` places:
`normalize` keeps the exact sum to sixteen digits, one place up when it has seventeen. -/
theorem normalize_aligned {Mhi Mlo plo d : Nat} {E : Int} (hhi : 10 ^ 15 ≤ Mhi ∧ Mhi < 10 ^ 16)
    (hlo : Mlo < 10 ^ 16) (hE : minExponent ≤ E) (hE' : E ≤ maxExponent)
    (hplace : (E - minExponent).toNat = plo + d)
    (hfit : chop 10 16 (Mhi * 10 ^ (plo + d) + Mlo * 10 ^ plo) < 10 ^ 192) :
    ∃ c, normalize (((Mlo / 10 ^ d : Nat) : Int) + (Mhi : Int)) E = .ok c ∧ c.Pos ∧
      val c = chop 10 16 (Mhi * 10 ^ (plo + d) + Mlo * 10 ^ plo) := by
  have hq : Mlo / 10 ^ d < 10 ^ 16 := lt_of_le_of_lt (Nat.div_le_self _ _) hlo
  have hr : Mlo % 10 ^ d * 10 ^ plo < 10 ^ (plo + d) := by
    rw [Nat.pow_add, Nat.mul_comm (10 ^ plo)]
    exact Nat.mul_lt_mul_of_pos_right (Nat.mod_lt _ (Nat.pow_pos (by decide))) (Nat.pow_pos (by decide))
  have hcast : ((Mlo / 10 ^ d : Nat) : Int) + (Mhi : Int) = ((Mlo / 10 ^ d + Mhi : Nat) : Int) := by push_cast; rfl
  rw [val_add_split] at hfit ⊢
  rw [hcast]
  have hS15 : 10 ^ 15 ≤ Mlo / 10 ^ d + Mhi := le_trans hhi.1 (Nat.le_add_left _ _)
  have hS17 : Mlo / 10 ^ d + Mhi < 10 ^ 17 := by omega
  generalize Mlo % 10 ^ d * 10 ^ plo = r at hr hfit ⊢
  generalize Mlo / 10 ^ d + Mhi = S at hS15 hS17 hfit ⊢
  by_cases h16 : S < 10 ^ 16
  · -- sixteen digits: the sum is exact at the higher place
    rw [normalize_sum hS15 hS17 hE hE' (Or.inl h16), if_pos h16,
      chop_mul_add (by decide) (by decide) hS15 h16 hr]
    refine ⟨_, rfl, pos_mk hS15 h16 hE hE', ?_⟩
    simp only [val, place, Int.toNat_natCast, hplace]
  · -- seventeen digits: the last is dropped and the sum is one place up
    have hsplit : S * 10 ^ (plo + d) + r = S / 10 * 10 ^ (plo + d + 1) + (S % 10 * 10 ^ (plo + d) + r) := by
      have := Nat.div_add_mod S 10
      rw [Nat.pow_succ]
      calc S * 10 ^ (plo + d) + r = (10 * (S / 10) + S % 10) * 10 ^ (plo + d) + r := by rw [this]
        _ = S / 10 * (10 ^ (plo + d) * 10) + (S % 10 * 10 ^ (plo + d) + r) := by ring
    have hr' : S % 10 * 10 ^ (plo + d) + r < 10 ^ (plo + d + 1) := by
      have hm := Nat.mod_lt S (show 0 < 10 by decide)
      have : S % 10 * 10 ^ (plo + d) + 10 ^ (plo + d) ≤ 10 * 10 ^ (plo + d) := by
        rw [← Nat.succ_mul]; exact Nat.mul_le_mul_right _ hm
      rw [Nat.pow_succ]; omega
    have hq' : 10 ^ 15 ≤ S / 10 ∧ S / 10 < 10 ^ 16 := by omega
    rw [hsplit, chop_mul_add (by decide) (by decide) hq'.1 hq'.2 hr'] at hfit ⊢
    -- the sum is below the largest amount, so the exponent can go one up
    have hpow : 10 ^ (15 + (plo + d + 1)) < 10 ^ 192 := by
      rw [Nat.pow_add]
      exact lt_of_le_of_lt (Nat.mul_le_mul_right _ hq'.1) hfit
    have hlt := (Nat.pow_lt_pow_iff_right (by decide)).mp hpow
    have hE80 : E < maxExponent := by unfold maxExponent; unfold minExponent at hplace; omega
    rw [normalize_sum hS15 hS17 hE hE' (Or.inr hE80), if_neg h16]
    refine ⟨_, rfl, pos_mk hq'.1 hq'.2 (by omega) (by omega), ?_⟩
    have hplace' : (E + 1 - minExponent).toNat = plo + d + 1 := by omega
    simp only [val, place, Int.toNat_natCast, hplace']

theorem Pos.mantissa_pos {a : IOUAmount} (h : a.Pos) : 0 < a.mantissa := by
  have hm := h.min_le
  unfold minMantissa at hm
  omega

theorem Pos.mantissa_eq {a : IOUAmount} (h : a.Pos) : a.mantissa = (a.mantissa.toNat : Int) := by
  have := h.mantissa_pos
  omega

/-- Of two positive amounts, the one of the higher exponent is the larger. -/
theorem Pos.val_lt_of_exponent_lt {a b : IOUAmount} (ha : a.Pos) (hb : b.Pos)
    (h : a.exponent < b.exponent) : val a < val b := by
  have hea := ha.exp_ge
  have hp : 16 + a.place ≤ 15 + b.place := by unfold place; omega
  exact lt_of_lt_of_le ha.val_bounds.2 ((Nat.pow_le_pow_right (by decide) hp).trans hb.val_bounds.1)

/-- A sum above ten units of its last place is not sent to zero. -/
theorem not_near_zero {q M : Nat} (hM : 10 ^ 15 ≤ M) : ¬(-10 ≤ (q : Int) + M ∧ (q : Int) + M ≤ 10) := by
  omega

/-- Two positive amounts added at the exponent of `hi`, with `lo`'s mantissa aligned up to it. -/
theorem normalize_aligned_pos {hi lo : IOUAmount} (hhi : hi.Pos) (hlo : lo.Pos)
    (hle : lo.exponent ≤ hi.exponent) (hfit : chop 10 16 (val hi + val lo) < 10 ^ 192) :
    ∃ c, normalize (((lo.mantissa.toNat / 10 ^ (hi.exponent - lo.exponent).toNat : Nat) : Int) +
        (hi.mantissa.toNat : Int)) hi.exponent = .ok c ∧ c.Pos ∧ val c = chop 10 16 (val hi + val lo) := by
  have hel := hlo.exp_ge
  have hplace : hi.place = lo.place + (hi.exponent - lo.exponent).toNat := by unfold place; omega
  rw [val, val, hplace] at hfit ⊢
  exact normalize_aligned hhi.digits hlo.digits.2 hhi.exp_ge hhi.exp_le hplace hfit

/-- **Adding two positive amounts** gives their exact sum kept to sixteen digits, as long as that
is not above the largest amount. -/
theorem plus_pos {a b : IOUAmount} (ha : a.Pos) (hb : b.Pos) (hfit : chop 10 16 (val a + val b) < 10 ^ 192) :
    ∃ c, a.plus b = .ok c ∧ c.Pos ∧ val c = chop 10 16 (val a + val b) := by
  have hea := ha.exp_ge
  have heb := hb.exp_ge
  unfold plus
  rw [if_neg hb.ne_zero, if_neg ha.ne_zero]
  by_cases hle : a.exponent ≤ b.exponent
  · -- `a` is aligned up to `b`'s exponent
    rw [ha.mantissa_eq, raiseTo_natCast b.exponent _ a.mantissa.toNat a.exponent (by omega)]
    dsimp only
    rw [raiseTo_of_le (le_refl _), hb.mantissa_eq]
    dsimp only
    rw [if_neg (not_near_zero hb.digits.1), Nat.add_comm (val a)]
    rw [Nat.add_comm (val a)] at hfit
    exact normalize_aligned_pos hb ha hle hfit
  · -- `b` is aligned up to `a`'s exponent
    have hlt : b.exponent < a.exponent := by omega
    rw [raiseTo_of_le hlt.le]
    dsimp only
    rw [hb.mantissa_eq, raiseTo_natCast a.exponent _ b.mantissa.toNat b.exponent (by omega)]
    dsimp only
    rw [ha.mantissa_eq, Int.add_comm, if_neg (not_near_zero ha.digits.1)]
    exact normalize_aligned_pos ha hb hlt.le hfit

/-- Adding amounts that are not negative: zero adds nothing, and two positive amounts add as
`plus_pos` says. -/
theorem plus_nonneg {a b : IOUAmount} (ha : a.Nonneg) (hb : b.Nonneg) (hfit : chop 10 16 (val a + val b) < 10 ^ 192) :
    ∃ c, a.plus b = .ok c ∧ c.Nonneg ∧ val c = chop 10 16 (val a + val b) := by
  rcases hb with rfl | hb
  · refine ⟨a, if_pos rfl, ha, ?_⟩
    rw [val_zero, Nat.add_zero, ha.chop_val]
  · rcases ha with rfl | ha
    · refine ⟨b, ?_, Or.inr hb, ?_⟩
      · unfold plus
        rw [if_neg hb.ne_zero, if_pos rfl]
      · rw [val_zero, Nat.zero_add, hb.chop_val]
    · obtain ⟨c, hc, hpos, hval⟩ := plus_pos ha hb hfit
      exact ⟨c, hc, Or.inr hpos, hval⟩

/-! ## Comparing -/

/-- **The order of amounts that are not negative** is that of their values. -/
theorem lessThan_nonneg {a b : IOUAmount} (ha : a.Nonneg) (hb : b.Nonneg) :
    a.lessThan b = decide (val a < val b) := by
  have h0 : zero.mantissa = 0 := rfl
  rcases ha with rfl | ha <;> rcases hb with rfl | hb
  · rfl
  · -- zero is below every positive amount
    have hm := hb.mantissa_pos
    have hpos : 0 < val b := lt_of_lt_of_le (Nat.pow_pos (by decide)) hb.val_bounds.1
    simp only [lessThan, h0, Int.lt_irrefl, decide_false, show ¬(b.mantissa < 0) by omega, bne_self_eq_false,
      Bool.false_eq_true, if_false, if_true, gt_iff_lt, hm, decide_true, val_zero, hpos]
  · -- and no positive amount is below zero
    have hm := ha.mantissa_pos
    simp only [lessThan, h0, Int.lt_irrefl, decide_false, show ¬(a.mantissa < 0) by omega, bne_self_eq_false,
      Bool.false_eq_true, if_false, if_true, show a.mantissa ≠ 0 by omega, val_zero, Nat.not_lt_zero]
  · -- two positive amounts: by exponent, then by mantissa
    have hma := ha.mantissa_pos
    have hmb := hb.mantissa_pos
    have hea := ha.exp_ge
    have heb := hb.exp_ge
    simp only [lessThan, show ¬(a.mantissa < 0) by omega, show ¬(b.mantissa < 0) by omega,
      show a.mantissa ≠ 0 by omega, show b.mantissa ≠ 0 by omega, decide_false, bne_self_eq_false,
      Bool.false_eq_true, if_false, Bool.not_false]
    split_ifs with hgt hlt
    · -- a higher exponent is a larger amount
      exact (decide_eq_false (Nat.lt_asymm (hb.val_lt_of_exponent_lt ha hgt))).symm
    · exact (decide_eq_true (ha.val_lt_of_exponent_lt hb hlt)).symm
    · -- one exponent: the mantissas decide
      have hp : a.place = b.place := by unfold place; omega
      have hpow : 0 < 10 ^ b.place := Nat.pow_pos (by decide)
      rw [decide_eq_decide, val, val, hp, Nat.mul_lt_mul_right hpow]
      omega

/-! ## Subtracting -/

/-- `growLoop` moves digits up while the mantissa is short and the exponent above `minExponent`,
keeping the value, the mantissa within sixteen digits and the exponent within range. -/
theorem growLoop_val : ∀ (n m : Nat) (e : Int), minExponent ≤ e → (m : Int) ≤ maxMantissa →
    ∃ (m' : Nat) (e' : Int), growLoop n m e = ((m' : Int), e') ∧ minExponent ≤ e' ∧ e' ≤ e ∧
      (m' : Int) ≤ maxMantissa ∧ m' * 10 ^ (e' - minExponent).toNat = m * 10 ^ (e - minExponent).toNat
  | 0, m, e, he, hm => ⟨m, e, rfl, he, le_rfl, hm, rfl⟩
  | n + 1, m, e, he, hm => by
    simp only [growLoop]
    split
    · rename_i hgrow
      -- a short mantissa gets one more digit, a place down
      have hcast : (m : Int) * 10 = ((m * 10 : Nat) : Int) := by push_cast; rfl
      have hm' : ((m * 10 : Nat) : Int) ≤ maxMantissa := by
        unfold minMantissa at hgrow; unfold maxMantissa; omega
      obtain ⟨m', e', hg, h1, h2, h3, h4⟩ := growLoop_val n (m * 10) (e - 1) (by omega) hm'
      refine ⟨m', e', by rw [hcast, hg], h1, by omega, h3, ?_⟩
      have hexp : (e - minExponent).toNat = (e - 1 - minExponent).toNat + 1 := by omega
      rw [h4, hexp, Nat.pow_succ]
      ring
    · exact ⟨m, e, rfl, he, le_rfl, hm, rfl⟩

/-- `normalize` of a positive mantissa within sixteen digits at an exponent in range: an amount of
that value, or zero when it is too small to keep. -/
theorem normalize_pos_le {m : Nat} {e : Int} (hm0 : 0 < m) (hm : (m : Int) ≤ maxMantissa) (he : minExponent ≤ e)
    (he' : e ≤ maxExponent) :
    ∃ r, normalize m e = .ok r ∧ r.Nonneg ∧ val r ≤ m * 10 ^ (e - minExponent).toNat := by
  obtain ⟨m', e', hg, h1, h2, h3, h4⟩ := growLoop_val (e - minExponent).toNat m e he hm
  have hpos : (m : Int) ≠ 0 := by omega
  have hneg : ¬((m : Int) < 0) := by omega
  simp only [normalize, hpos, hneg, if_false, hg, shrinkLoop_of_le h3]
  by_cases hlow : e' < minExponent ∨ (m' : Int) < minMantissa
  · rw [if_pos hlow]
    exact ⟨zero, rfl, Or.inl rfl, Nat.zero_le _⟩
  · rw [if_neg hlow, if_neg (by omega)]
    have hmin : 10 ^ 15 ≤ m' := by unfold minMantissa at hlow; omega
    have hmax : m' < 10 ^ 16 := by unfold maxMantissa at h3; omega
    refine ⟨_, rfl, Or.inr (pos_mk hmin hmax h1 (by omega)), ?_⟩
    simp only [val, place, Int.toNat_natCast, h4, le_refl]

/-- The first `pS + d` places of `S`'s value cut at `pS + d`: its mantissa aligned by `d` places. -/
theorem floorTo_val_aligned (MS pS d : Nat) :
    floorTo 10 (pS + d) (MS * 10 ^ pS) = MS / 10 ^ d * 10 ^ (pS + d) := by
  rw [floorTo, Nat.pow_add, Nat.mul_comm (10 ^ pS) (10 ^ d),
    Nat.mul_div_mul_right _ _ (Nat.pow_pos (by decide))]

/-- **What is left of `T` after `S`**, for `S ≤ T`: `S` is aligned to `T`'s exponent by truncation,
so what is left is at most `T` less `S` cut at the place of `T`'s last digit (it is that, or zero
when that is within ten units of the place or too small to keep). -/
theorem minus_le {T S : IOUAmount} (hT : T.Nonneg) (hS : S.Nonneg) (hle : val S ≤ val T) :
    ∃ R, T.minus S = .ok R ∧ R.Nonneg ∧ val R ≤ val T - floorTo 10 (level 10 16 (val T)) (val S) := by
  rcases hS with rfl | hS
  · -- nothing to take away
    refine ⟨T, ?_, hT, ?_⟩
    · simp [minus, neg, zero, plus]
    · simp [floorTo]
  rcases hT with rfl | hT
  · have h15 := hS.val_bounds.1
    have hpow : 0 < 10 ^ (15 + S.place) := Nat.pow_pos (by decide)
    rw [val_zero] at hle
    omega
  have hes := hS.exp_ge
  -- `S` is not of a higher exponent than `T`
  have hex : S.exponent ≤ T.exponent := by
    by_contra hgt
    have := hT.val_lt_of_exponent_lt hS (by omega)
    omega
  have hplace : T.place = S.place + (T.exponent - S.exponent).toNat := by unfold place; omega
  have hneg : S.neg = .ok ⟨-S.mantissa, S.exponent⟩ := by
    unfold neg
    simpa using normalize_of_range (m := S.mantissa) true hS.min_le hS.le_max hS.exp_ge hS.exp_le
  have hnz : (⟨-S.mantissa, S.exponent⟩ : IOUAmount) ≠ zero := by
    intro h
    have := congrArg IOUAmount.mantissa h
    have := hS.min_le
    simp only [zero] at *
    unfold minMantissa at *
    omega
  -- the truncated `S` is no more than `T`'s mantissa
  have hq : S.mantissa.toNat / 10 ^ (T.exponent - S.exponent).toNat ≤ T.mantissa.toNat := by
    have hf := floorTo_mono (b := 10) (T.place) hle
    rw [val, hplace, floorTo_val_aligned, ← hplace, val, floorTo_eq_of_dvd (Nat.dvd_mul_left _ _)] at hf
    exact (Nat.mul_le_mul_right_iff (Nat.pow_pos (by decide))).mp hf
  simp only [minus, hneg, bind, Except.bind]
  unfold plus
  rw [if_neg hnz, if_neg hT.ne_zero, raiseTo_of_le hex]
  dsimp only
  rw [hS.mantissa_eq, raiseTo_neg_natCast T.exponent _ S.mantissa.toNat S.exponent (by omega)]
  dsimp only
  rw [hT.mantissa_eq]
  -- what is left, at `T`'s last place
  have hval : val T - floorTo 10 (level 10 16 (val T)) (val S) =
      (T.mantissa.toNat - S.mantissa.toNat / 10 ^ (T.exponent - S.exponent).toNat) * 10 ^ T.place := by
    rw [hT.level_val, val, val, hplace, floorTo_val_aligned, ← hplace, Nat.sub_mul]
  rw [hval]
  generalize S.mantissa.toNat / 10 ^ (T.exponent - S.exponent).toNat = q at hq ⊢
  have hsub : (T.mantissa.toNat : Int) + -(q : Int) = ((T.mantissa.toNat - q : Nat) : Int) := by omega
  rw [hsub]
  split
  · exact ⟨zero, rfl, Or.inl rfl, Nat.zero_le _⟩
  · rename_i hnear
    have hmax : ((T.mantissa.toNat - q : Nat) : Int) ≤ maxMantissa := by
      have := hT.le_max
      rw [hT.mantissa_eq] at this
      omega
    exact normalize_pos_le (by omega) hmax hT.exp_ge hT.exp_le

/-! ## Summing -/

/-- **Summing with `plus`** from an amount `a`, over amounts that are not negative, is summing their
values with every partial sum kept to sixteen digits, as long as that is not above the largest
amount: every partial sum is below the whole, so no `plus` throws. -/
theorem foldlM_plus : ∀ (xs : List IOUAmount) (a : IOUAmount), a.Nonneg → (∀ x ∈ xs, x.Nonneg) →
    (xs.map val).foldl (fun s y => chop 10 16 (s + y)) (val a) < 10 ^ 192 →
    ∃ c, xs.foldlM plus a = .ok c ∧ c.Nonneg ∧ val c = (xs.map val).foldl (fun s y => chop 10 16 (s + y)) (val a)
  | [], a, ha, _, _ => ⟨a, rfl, ha, rfl⟩
  | x :: xs, a, ha, hxs, hfit => by
    have hx := hxs x List.mem_cons_self
    rw [List.map_cons, List.foldl_cons] at hfit ⊢
    have hstep : chop 10 16 (val a + val x) < 10 ^ 192 :=
      lt_of_le_of_lt (le_foldl_chop (by decide) (by decide) (chop_chop (by decide) (by decide) _) _) hfit
    obtain ⟨c, hc, hcn, hcv⟩ := plus_nonneg ha hx hstep
    rw [← hcv] at hfit ⊢
    obtain ⟨d, hd, hdn, hdv⟩ := foldlM_plus xs c hcn (fun y hy => hxs y (List.mem_cons_of_mem x hy)) hfit
    refine ⟨d, ?_, hdn, hdv⟩
    rw [List.foldlM_cons, hc]
    exact hd

end IOUAmount

end Ripple
