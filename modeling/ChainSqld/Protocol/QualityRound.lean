import ChainSqld.Lib.Rounding
import ChainSqld.Protocol.Quality

/-!
# Rounding a quality to a tick size

`Quality::round (digits)` rounds the mantissa of the packed rate up to a multiple of
`10^(16 - digits)` in place: the exponent byte is kept and the mantissa is not renormalized, so a
mantissa just below `10^16` becomes `10^16` at its old exponent. As the number `Quality` compares,
the result is the exponent byte above the rounded mantissa (`toNat_round`). Rounding therefore
worsens the quality (`round_le`), is idempotent (`round_round`) and monotone (`round_mono`).
The rate of the result is the rounded mantissa at the old exponent, renormalized after a carry
(`rate_round`), except after a carry at the largest exponent, where `rate ()` throws.
-/

set_option autoImplicit false

namespace Ripple

namespace Quality

open STAmount Rounding

/-- `minTickSize`, `maxTickSize`. -/
def minTickSize : Nat := 3

def maxTickSize : Nat := 16

/-- The table `mod` of `round`: `mod[digits]` is `10^(16 - digits)`. -/
def roundMod : Vector UInt64 17 :=
  #v[10000000000000000, 1000000000000000, 100000000000000, 10000000000000, 1000000000000,
    100000000000, 10000000000, 1000000000, 100000000, 10000000, 1000000, 100000, 10000, 1000, 100,
    10, 1]

/-- `round (digits)`. -/
def round (q : Quality) (digits : Fin 17) : Quality :=
  let exponent := q.m_value >>> (64 - 8)
  let mantissa := q.m_value &&& 0x00ffffffffffffff
  let mantissa := mantissa + (roundMod[digits] - 1)
  let mantissa := mantissa - mantissa % roundMod[digits]
  ⟨(exponent <<< (64 - 8)) ||| mantissa⟩

/-- `operator> (Quality, Quality)`. -/
def gt (lhs rhs : Quality) : Bool := lhs.m_value < rhs.m_value

/-- `operator<= (Quality, Quality)`: `!(lhs > rhs)`. -/
def le (lhs rhs : Quality) : Bool := !(gt lhs rhs)

/-- The exponent byte and the mantissa of the packed rate, as numbers. -/
def exponent (q : Quality) : Nat := q.m_value.toNat / 2 ^ 56

def mantissa (q : Quality) : Nat := q.m_value.toNat % 2 ^ 56

/-- The mantissa is normalized. -/
def Normalized (q : Quality) : Prop :=
  cMinValue.toNat ≤ q.mantissa ∧ q.mantissa ≤ cMaxValue.toNat

instance : DecidablePred Normalized := fun _ => inferInstanceAs (Decidable (_ ∧ _))

/-! ## The rounded value -/

theorem toNat_roundMod (d : Fin 17) : roundMod[d].toNat = 10 ^ (16 - d.val) := by
  revert d
  decide

theorem le_iff (lhs rhs : Quality) : le lhs rhs = true ↔ rhs.m_value.toNat ≤ lhs.m_value.toNat := by
  simp [le, gt, UInt64.lt_iff_toNat_lt]

theorem toNat_eq (q : Quality) : q.m_value.toNat = q.exponent * 2 ^ 56 + q.mantissa := by
  unfold exponent mantissa
  omega

theorem exponent_lt (q : Quality) : q.exponent < 256 := by
  have := q.m_value.toNat_lt
  unfold exponent
  omega

/-- **The rounded quality** is the exponent byte above the mantissa rounded up. -/
theorem toNat_round (q : Quality) (d : Fin 17) (h : q.mantissa ≤ 10 ^ 16) :
    (q.round d).m_value.toNat = q.exponent * 2 ^ 56 + ceilMultiple (10 ^ (16 - d.val)) q.mantissa := by
  have hM := toNat_roundMod d
  have hMpos : 0 < 10 ^ (16 - d.val) := Nat.pow_pos (by decide)
  have hMle : 10 ^ (16 - d.val) ≤ 10 ^ 16 := Nat.pow_le_pow_right (by decide) (by omega)
  have hc : ceilMultiple (10 ^ (16 - d.val)) q.mantissa ≤ 10 ^ 16 :=
    ceilMultiple_le_of_dvd hMpos (Nat.pow_dvd_pow 10 (by omega)) h
  have hmask : (q.m_value &&& 0x00ffffffffffffff).toNat = q.mantissa := by
    rw [UInt64.toNat_and, show (0x00ffffffffffffff : UInt64).toNat = 2 ^ 56 - 1 from rfl,
      Nat.and_two_pow_sub_one_eq_mod]
    rfl
  -- the sum does not wrap, and dropping its remainder is `ceilMultiple`
  have h1 : (1 : UInt64) ≤ roundMod[d] := UInt64.le_iff_toNat_le.mpr (by rw [UInt64.toNat_one, hM]; exact hMpos)
  have hsum : ((q.m_value &&& 0x00ffffffffffffff) + (roundMod[d] - 1)).toNat =
      q.mantissa + 10 ^ (16 - d.val) - 1 := by
    rw [UInt64.toNat_add, UInt64.toNat_sub_of_le _ _ h1, hmask, hM, UInt64.toNat_one]
    rw [Nat.mod_eq_of_lt (by omega)]
    omega
  have hround : (((q.m_value &&& 0x00ffffffffffffff) + (roundMod[d] - 1)) -
      ((q.m_value &&& 0x00ffffffffffffff) + (roundMod[d] - 1)) % roundMod[d]).toNat =
      ceilMultiple (10 ^ (16 - d.val)) q.mantissa := by
    rw [UInt64.toNat_sub_of_le _ _ (UInt64.le_iff_toNat_le.mpr (by rw [UInt64.toNat_mod]; exact Nat.mod_le _ _)),
      UInt64.toNat_mod, hsum, hM]
    rfl
  have hexp : (q.m_value >>> (64 - 8)).toNat = q.exponent := toNat_rateExponent _
  simp only [round]
  rw [UInt64.toNat_or, UInt64.toNat_shiftLeft, hexp, hround]
  have hlt := exponent_lt q
  simp only [UInt64.reduceSub, UInt64.reduceToNat, Nat.reduceMod, Nat.shiftLeft_eq]
  rw [Nat.mod_eq_of_lt (by omega), ← Nat.shiftLeft_eq, Nat.shiftLeft_or_of_lt (by omega), Nat.shiftLeft_eq]

theorem mantissa_lt (q : Quality) : q.mantissa < 2 ^ 56 := Nat.mod_lt _ (by decide)

theorem ext_toNat {q q' : Quality} (h : q.m_value.toNat = q'.m_value.toNat) : q = q' := by
  obtain ⟨v⟩ := q
  obtain ⟨v'⟩ := q'
  congr 1
  exact UInt64.toNat_inj.mp h

section Round

variable {q q' : Quality} (d : Fin 17)

theorem pos_roundMod : 0 < 10 ^ (16 - d.val) := Nat.pow_pos (by decide)

theorem ceilMultiple_le (h : q.mantissa ≤ 10 ^ 16) : ceilMultiple (10 ^ (16 - d.val)) q.mantissa ≤ 10 ^ 16 :=
  ceilMultiple_le_of_dvd (pos_roundMod d) (Nat.pow_dvd_pow 10 (by omega)) h

theorem exponent_round (h : q.mantissa ≤ 10 ^ 16) : (q.round d).exponent = q.exponent := by
  have hc := ceilMultiple_le d h
  show (q.round d).m_value.toNat / 2 ^ 56 = q.exponent
  rw [toNat_round q d h]
  omega

theorem mantissa_round (h : q.mantissa ≤ 10 ^ 16) :
    (q.round d).mantissa = ceilMultiple (10 ^ (16 - d.val)) q.mantissa := by
  have hc := ceilMultiple_le d h
  show (q.round d).m_value.toNat % 2 ^ 56 = _
  rw [toNat_round q d h]
  omega

/-- **Rounding worsens the quality**: the rounded quality is not above it. -/
theorem round_le (h : q.mantissa ≤ 10 ^ 16) : le (q.round d) q = true := by
  have hx := le_ceilMultiple (x := q.mantissa) (pos_roundMod d)
  rw [le_iff, toNat_round q d h, toNat_eq q]
  omega

/-- **Rounding is idempotent.** -/
theorem round_round (h : q.mantissa ≤ 10 ^ 16) : (q.round d).round d = q.round d := by
  have hm := mantissa_round d h
  have hc : (q.round d).mantissa ≤ 10 ^ 16 := hm ▸ ceilMultiple_le d h
  apply ext_toNat
  rw [toNat_round _ d hc, exponent_round d h, hm,
    ceilMultiple_of_dvd (pos_roundMod d) (dvd_ceilMultiple _ _), toNat_round q d h]

/-- **Rounding is monotone**, a carry to `10^16` included. -/
theorem round_mono (h : q.mantissa ≤ 10 ^ 16) (h' : q'.mantissa ≤ 10 ^ 16) (hle : le q q' = true) :
    le (q.round d) (q'.round d) = true := by
  have hc' := ceilMultiple_le d h'
  have hm := q.mantissa_lt
  have hm' := q'.mantissa_lt
  rw [le_iff, toNat_eq, toNat_eq] at hle
  rw [le_iff, toNat_round q d h, toNat_round q' d h']
  rcases Nat.lt_or_ge q'.exponent q.exponent with he | he
  · -- a lower exponent byte stays lower, whatever the mantissas round to
    omega
  · have he : q'.exponent = q.exponent := by omega
    have := ceilMultiple_mono (m := 10 ^ (16 - d.val)) (show q'.mantissa ≤ q.mantissa by omega)
    omega

end Round

/-! ## The rate of a rounded quality -/

/-- A mantissa of `10^16`, one past the largest, moves to the next offset. -/
theorem canonicalize_carry {o : Int} (ho : -97 ≤ o) (ho' : o < 80) :
    canonicalize ⟨noIssue, 10000000000000000, o, false, false⟩ =
      .ok ⟨noIssue, 1000000000000000, o + 1, false, false⟩ := by
  obtain ⟨n, hn⟩ : ∃ n, (cMaxOffset - o).toNat = n + 1 := ⟨(cMaxOffset - o).toNat - 1, by simp [cMaxOffset]; omega⟩
  unfold canonicalize
  rw [if_neg (by simp [isZXC_noIssue]), if_neg (show ¬ (10000000000000000 : UInt64) = 0 by decide),
    growMantissa_of_le (show cMinValue ≤ (10000000000000000 : UInt64) by decide)]
  dsimp only
  rw [hn, shrinkMantissa, if_pos (show (10000000000000000 : UInt64) > cMaxValue by decide),
    if_neg (by simp [cMaxOffset]; omega),
    shrinkMantissa_of_le (show (10000000000000000 : UInt64) / 10 ≤ cMaxValue by decide)]
  simp [cMinOffset, cMaxOffset, cMinValue, show ¬ o + 1 < -96 by omega, show ¬ 80 < o + 1 by omega]

theorem mask_eq_ofNat (q : Quality) : q.m_value &&& ~~~((255 : UInt64) <<< (64 - 8)) = UInt64.ofNat q.mantissa := by
  apply UInt64.toNat_inj.mp
  rw [toNat_rateMantissa, UInt64.toNat_ofNat']
  have := q.mantissa_lt
  unfold mantissa at this ⊢
  omega

theorem inRange_rate {q : Quality} (hq : q.Normalized) (he : 4 ≤ q.exponent) (he' : q.exponent ≤ 180) :
    InRange ⟨noIssue, UInt64.ofNat q.mantissa, (q.exponent : Int) - 100, false, false⟩ := by
  obtain ⟨h1, h2⟩ := hq
  simp only [cMinValue, cMaxValue, UInt64.reduceToNat] at h1 h2
  have hv : (UInt64.ofNat q.mantissa).toNat = q.mantissa := by rw [UInt64.toNat_ofNat']; omega
  refine ⟨?_, ?_, ?_, ?_⟩
  · exact UInt64.le_iff_toNat_le.mpr (by rw [hv]; exact h1)
  · exact UInt64.le_iff_toNat_le.mpr (by rw [hv]; exact h2)
  · show -96 ≤ (q.exponent : Int) - 100
    omega
  · show (q.exponent : Int) - 100 ≤ 80
    omega

theorem ne_zero_of_mantissa {q : Quality} (h : q.mantissa ≠ 0) : q.m_value ≠ 0 :=
  fun h0 => h (by simp [mantissa, h0])

/-- The rate of a quality is its mantissa at its exponent less `100`, as it stands. -/
theorem rate_eq {q : Quality} (hq : q.Normalized) (he : 4 ≤ q.exponent) (he' : q.exponent ≤ 180) :
    q.rate = .ok ⟨noIssue, UInt64.ofNat q.mantissa, (q.exponent : Int) - 100, false, false⟩ := by
  have hx := ne_zero_of_mantissa (q := q) (by have := hq.1; simp only [cMinValue, UInt64.reduceToNat] at this; omega)
  unfold rate amountFromQuality
  rw [if_neg hx]
  dsimp only
  rw [mask_eq_ofNat, toNat_rateExponent]
  exact ofParts_inRange isZXC_noIssue (inRange_rate hq he he')

/-- After a carry the rate is `10^15` at the next offset. -/
theorem rate_eq_carry {q : Quality} (hm : q.mantissa = 10 ^ 16) (he : 4 ≤ q.exponent) (he' : q.exponent < 180) :
    q.rate = .ok ⟨noIssue, 1000000000000000, (q.exponent : Int) - 99, false, false⟩ := by
  have hx := ne_zero_of_mantissa (q := q) (by omega)
  unfold rate amountFromQuality
  rw [if_neg hx]
  dsimp only
  rw [mask_eq_ofNat, toNat_rateExponent, hm]
  show canonicalize ⟨noIssue, 10000000000000000, (q.exponent : Int) - 100, false, false⟩ = _
  rw [canonicalize_carry (by omega) (by omega)]
  congr 2
  omega

/-- **The rate of the rounded quality** is the rounded mantissa at the old offset, renormalized
after a carry: a canonical amount, not below the rate, whose mantissa ends in `16 - digits` zeros.
A carry at the largest offset is left out: there `rate ()` throws. -/
theorem rate_round {q : Quality} (hq : q.Normalized) (d : Fin 17) (hd : 1 ≤ d.val) (he : 4 ≤ q.exponent)
    (he' : q.exponent ≤ 180) (hcarry : q.exponent = 180 → (q.round d).mantissa < 10 ^ 16) :
    ∃ r r', q.rate = .ok r ∧ (q.round d).rate = .ok r' ∧ InRange r' ∧ r.toRat ≤ r'.toRat ∧
      10 ^ (16 - d.val) ∣ r'.mValue.toNat := by
  have h1 := hq.1
  have h2 := hq.2
  simp only [cMinValue, cMaxValue, UInt64.reduceToNat] at h1 h2
  have h16 : q.mantissa ≤ 10 ^ 16 := by omega
  have hm := mantissa_round d h16
  have hexp := exponent_round d h16
  have hxc := le_ceilMultiple (x := q.mantissa) (pos_roundMod d)
  have hcle := ceilMultiple_le d h16
  have hr := toRat_of_not_neg (a := ⟨noIssue, UInt64.ofNat q.mantissa, (q.exponent : Int) - 100, false, false⟩) rfl
  have hpos : (0 : ℚ) ≤ 10 ^ ((q.exponent : Int) - 100) := zpow_nonneg (by norm_num) _
  have hvx : (UInt64.ofNat q.mantissa).toNat = q.mantissa := by rw [UInt64.toNat_ofNat']; omega
  by_cases hcar : ceilMultiple (10 ^ (16 - d.val)) q.mantissa < 10 ^ 16
  · -- no carry: the rounded quality is normalized at the same exponent
    have hqr : (q.round d).Normalized := by
      refine ⟨?_, ?_⟩ <;> simp only [cMinValue, cMaxValue, UInt64.reduceToNat] <;> omega
    have hvc : (UInt64.ofNat (q.round d).mantissa).toNat = (q.round d).mantissa := by
      rw [UInt64.toNat_ofNat']; omega
    refine ⟨_, _, rate_eq hq he he', rate_eq hqr (hexp ▸ he) (hexp ▸ he'), inRange_rate hqr (hexp ▸ he) (hexp ▸ he'),
      ?_, ?_⟩
    · rw [hr, toRat_of_not_neg rfl, hexp, hvx]
      dsimp only
      rw [hvc, hm]
      exact mul_le_mul_of_nonneg_right (by exact_mod_cast hxc) hpos
    · dsimp only
      rw [hvc, hm]
      exact dvd_ceilMultiple _ _
  · -- a carry: the mantissa is `10^16`, below the largest exponent
    have hc16 : (q.round d).mantissa = 10 ^ 16 := by omega
    have he180 : q.exponent < 180 := by
      rcases Nat.lt_or_ge q.exponent 180 with h | h
      · exact h
      · exact absurd (hcarry (by omega)) (by omega)
    refine ⟨_, _, rate_eq hq he he', rate_eq_carry hc16 (hexp ▸ he) (hexp ▸ he180), ?_, ?_, ?_⟩
    · refine ⟨show cMinValue ≤ (1000000000000000 : UInt64) by decide,
        show (1000000000000000 : UInt64) ≤ cMaxValue by decide, ?_, ?_⟩
      · show -96 ≤ ((q.round d).exponent : Int) - 99
        omega
      · show ((q.round d).exponent : Int) - 99 ≤ 80
        omega
    · rw [hr, toRat_of_not_neg rfl, hexp, hvx]
      dsimp only
      -- `10^15` at the next offset is `10^16` at this one
      have hshift : ((1000000000000000 : UInt64).toNat : ℚ) * 10 ^ ((q.exponent : Int) - 99) =
          (10 ^ 16 : ℕ) * 10 ^ ((q.exponent : Int) - 100) := by
        rw [show (1000000000000000 : UInt64).toNat = 10 ^ 15 by decide,
          show (q.exponent : Int) - 99 = ((q.exponent : Int) - 100) + 1 by ring, zpow_add_one₀ (by norm_num)]
        push_cast
        ring
      rw [hshift]
      exact mul_le_mul_of_nonneg_right (by exact_mod_cast h16) hpos
    · show 10 ^ (16 - d.val) ∣ (1000000000000000 : UInt64).toNat
      rw [show (1000000000000000 : UInt64).toNat = 10 ^ 15 by decide]
      exact Nat.pow_dvd_pow 10 (by omega)

/-! ## Tick sizes -/

end Quality

end Ripple
