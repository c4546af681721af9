import ChainSqld.Lib.Rounding
import Mathlib.Tactic.NormNum

/-!
# mulRatio

`mulRatio (amt, num, den, roundUp)` scales an amount by the ratio of two 32-bit integers, rounding
up or down as asked, for the two amount types of `ripple/protocol`:

* `ZXCAmount`, signed drops in 64 bits. The product is taken in 128 bits and divided, truncating
  towards zero, and corrected by one when there is a remainder, by the sign and the direction: the
  result is the ceiling or the floor of `amt * num / den` (`ZXCAmount.mulRatio_eq`). Only a result
  above the 64-bit range throws. The result is converted to 64 bits by Boost's `convert_to`, which
  is not in the sources: the model takes the conversion as a parameter (`Int64Convert`), exact on
  the 64-bit range. So a result in range is returned as it is (`ZXCAmount.mulRatio_in_range`), and
  one below the range, which no check stops, is returned as something else whatever the conversion
  (`ZXCAmount.mulRatio_below_range`).
* `IOUAmount`, a normalized mantissa of sixteen digits and an exponent. The quotient is scaled
  to about eighteen digits before rounding is decided from the remainders, and `normalize` drops
  the digits beyond sixteen afterwards without looking at them: an exact quotient of seventeen digits
  is truncated, also when rounding up (`IOUAmount.mulRatio_roundUp_exact_below`).
-/

set_option autoImplicit false

namespace Ripple

/-! ## ZXCAmount -/

/-- `ZXCAmount`: `std::int64_t drops_`. -/
structure ZXCAmount where
  drops : Int64
deriving DecidableEq, Repr

namespace ZXCAmount

/-- The quotient of `mulRatio`: `m / den` truncated towards zero, then moved by one when there is
a remainder, up for a non-negative amount rounded up and down for a negative one rounded down. -/
def roundedQuotient (neg roundUp : Bool) (m : Int) (den : Nat) : Int :=
  let r := m.tdiv den
  if m.tmod den ≠ 0 then
    let r := if !neg && roundUp then r + 1 else r
    if neg && !roundUp then r - 1 else r
  else r

/-- `convert_to<std::int64_t>` of a 128-bit integer. It is Boost's, outside the sources: the value
itself on the 64-bit range; below it, what a conversion gives is not fixed by the sources. -/
structure Int64Convert where
  convert : Int → Int64
  exact : ∀ r : Int, Int64.minValue.toInt ≤ r → r ≤ Int64.maxValue.toInt → (convert r).toInt = r

theorem toInt_ofInt_of_range (r : Int) (h₁ : Int64.minValue.toInt ≤ r) (h₂ : r ≤ Int64.maxValue.toInt) :
    (Int64.ofInt r).toInt = r := by
  rw [Int64.toInt_minValue] at h₁
  rw [Int64.toInt_maxValue] at h₂
  rw [Int64.toInt_ofInt]
  exact Int.bmod_eq_of_le (by simp [Int64.size]; omega) (by simp [Int64.size]; omega)

/-- The low 64 bits, as a two's-complement truncation gives them. -/
def Int64Convert.wrap : Int64Convert := ⟨Int64.ofInt, toInt_ofInt_of_range⟩

/-- The value clamped to the 64-bit range. -/
def clampInt64 (r : Int) : Int := max Int64.minValue.toInt (min Int64.maxValue.toInt r)

theorem toInt_ofInt_clampInt64 (r : Int) (h₁ : Int64.minValue.toInt ≤ r) (h₂ : r ≤ Int64.maxValue.toInt) :
    (Int64.ofInt (clampInt64 r)).toInt = r := by
  have hclamp : clampInt64 r = r := by
    rw [clampInt64, min_eq_right h₂, max_eq_right h₁]
  rw [hclamp]
  exact toInt_ofInt_of_range r h₁ h₂

/-- The nearest 64-bit integer, as Boost's fixed 128-bit integers convert on x86-64. -/
def Int64Convert.saturate : Int64Convert := ⟨fun r => Int64.ofInt (clampInt64 r), toInt_ofInt_clampInt64⟩

/-- `mulRatio (ZXCAmount, num, den, roundUp)`: the quotient of the 128-bit product, rounded; only
a result above the 64-bit range throws, and the result is converted to 64 bits by `conv`. -/
def mulRatio (conv : Int64Convert) (amt : ZXCAmount) (num den : UInt32) (roundUp : Bool) : Except String ZXCAmount :=
  if den = 0 then .error "division by zero"
  else
    let amt128 : Int := amt.drops.toInt
    let m := amt128 * num.toNat
    let r := roundedQuotient (amt128 < 0) roundUp m den.toNat
    if r > Int64.maxValue.toInt then .error "ZXC mulRatio overflow"
    else .ok ⟨conv.convert r⟩

/-- The corrected truncation is the rounding asked for, given the sign of the dividend. -/
theorem roundedQuotient_eq {neg : Bool} {m : Int} {d : Nat} (hd : 0 < d) (hpos : neg = false → 0 ≤ m)
    (hneg : neg = true → m ≤ 0) (roundUp : Bool) :
    roundedQuotient neg roundUp m d = if roundUp then ⌈(m : ℚ) / d⌉ else ⌊(m : ℚ) / d⌋ := by
  unfold roundedQuotient
  by_cases hr : m.tmod d = 0
  · -- exact: the truncation is both roundings
    have hdvd := Int.dvd_of_tmod_eq_zero hr
    have hfc := Rounding.floor_eq_ceil_of_dvd hd hdvd
    rcases Int.le_total 0 m with hm | hm
    · rw [if_neg (not_not.mpr hr), Rounding.tdiv_eq_floor hm, ← hfc]
      split <;> rfl
    · rw [if_neg (not_not.mpr hr), Rounding.tdiv_eq_ceil hm, hfc]
      split <;> rfl
  · have hstep := Rounding.floor_add_one_eq_ceil hd fun h => hr (Int.tmod_eq_zero_of_dvd h)
    rw [if_pos hr]
    cases neg with
    | false =>
      rw [Rounding.tdiv_eq_floor (hpos rfl)]
      cases roundUp <;> simp [hstep]
    | true =>
      rw [Rounding.tdiv_eq_ceil (hneg rfl)]
      cases roundUp <;> simp [← hstep]

/-- **mulRatio on drops.** With `x = amt * num / den`, `mulRatio` throws exactly when the ceiling
(rounding up) or the floor (rounding down) of `x` is above the largest 64-bit integer, and otherwise
returns that integer converted to 64 bits. -/
theorem mulRatio_eq (conv : Int64Convert) (amt : ZXCAmount) (num den : UInt32) (roundUp : Bool) (hden : den ≠ 0) :
    mulRatio conv amt num den roundUp =
      let x : ℚ := ((amt.drops.toInt * num.toNat : Int) : ℚ) / (den.toNat : ℚ)
      let r := if roundUp then ⌈x⌉ else ⌊x⌋
      if r > Int64.maxValue.toInt then .error "ZXC mulRatio overflow" else .ok ⟨conv.convert r⟩ := by
  have hd : 0 < den.toNat := by
    rw [Nat.pos_iff_ne_zero]
    exact fun h => hden (UInt32.toNat_inj.mp h)
  -- the product has the sign of the amount, or is zero
  have hpos : decide (amt.drops.toInt < 0) = false → 0 ≤ amt.drops.toInt * (num.toNat : Int) := by
    intro h
    exact Int.mul_nonneg (by simpa using h) (Int.natCast_nonneg _)
  have hneg : decide (amt.drops.toInt < 0) = true → amt.drops.toInt * (num.toNat : Int) ≤ 0 := by
    intro h
    exact Int.mul_nonpos_of_nonpos_of_nonneg (by simpa using (le_of_lt (of_decide_eq_true h)))
      (Int.natCast_nonneg _)
  simp only [mulRatio, if_neg hden, roundedQuotient_eq hd hpos hneg roundUp]

/-- **Directed rounding, whatever the conversion.** With `x = amt * num / den` and `r` its ceiling
(rounding up) or floor (rounding down): `mulRatio` throws exactly when `r` is above the 64-bit range,
and for `r` in the range it returns `r` drops. -/
theorem mulRatio_in_range (conv : Int64Convert) (amt : ZXCAmount) (num den : UInt32) (roundUp : Bool)
    (hden : den ≠ 0) :
    let x : ℚ := ((amt.drops.toInt * num.toNat : Int) : ℚ) / (den.toNat : ℚ)
    let r := if roundUp then ⌈x⌉ else ⌊x⌋
    (mulRatio conv amt num den roundUp = .error "ZXC mulRatio overflow" ↔ Int64.maxValue.toInt < r) ∧
      (Int64.minValue.toInt ≤ r → r ≤ Int64.maxValue.toInt →
        ∃ a, mulRatio conv amt num den roundUp = .ok a ∧ a.drops.toInt = r) := by
  intro x r
  rw [mulRatio_eq conv amt num den roundUp hden]
  constructor
  · constructor
    · intro h
      by_contra hle
      rw [if_neg hle] at h
      cases h
    · intro hlt
      exact if_pos hlt
  · intro h₁ h₂
    exact ⟨⟨conv.convert r⟩, if_neg (not_lt.mpr h₂), conv.exact r h₁ h₂⟩

/-- Seven drops halved, rounded up, for the truncating conversion: `4`. -/
theorem mulRatio_in_range_seven : (2 : UInt32) ≠ 0 ∧
    (let x : ℚ := (((7 : Int64).toInt * (1 : UInt32).toNat : Int) : ℚ) / ((2 : UInt32).toNat : ℚ)
     let r := if true then ⌈x⌉ else ⌊x⌋
     (mulRatio Int64Convert.wrap ⟨7⟩ 1 2 true = .error "ZXC mulRatio overflow" ↔ Int64.maxValue.toInt < r) ∧
       (Int64.minValue.toInt ≤ r → r ≤ Int64.maxValue.toInt →
         ∃ a, mulRatio Int64Convert.wrap ⟨7⟩ 1 2 true = .ok a ∧ a.drops.toInt = r)) :=
  ⟨by decide, mulRatio_in_range Int64Convert.wrap ⟨7⟩ 1 2 true (by decide)⟩

/-- Only the upper bound is checked. Twice `-5 * 10^18` drops is `-10^19`, below the 64-bit range,
and `mulRatio` converts it without throwing, to something other than `-10^19` whatever the
conversion: its low 64 bits are a positive amount, and saturation gives the least 64-bit integer. -/
theorem mulRatio_below_range :
    (∀ conv : Int64Convert, mulRatio conv ⟨-5000000000000000000⟩ 2 1 false = .ok ⟨conv.convert (-10000000000000000000)⟩ ∧
      (conv.convert (-10000000000000000000)).toInt ≠ -10000000000000000000) ∧
    (-10000000000000000000 : Int) < Int64.minValue.toInt ∧
    mulRatio Int64Convert.wrap ⟨-5000000000000000000⟩ 2 1 false = .ok ⟨Int64.ofInt (-10000000000000000000)⟩ ∧
    (Int64.ofInt (-10000000000000000000)).toInt = 8446744073709551616 ∧
    (Int64Convert.saturate.convert (-10000000000000000000)).toInt = Int64.minValue.toInt := by
  refine ⟨fun conv => ⟨rfl, ?_⟩, by decide, rfl, by decide, by decide⟩
  -- every 64-bit integer is at least the least one, above `-10^19`
  have hmin := Int64.minValue_le_toInt (conv.convert (-10000000000000000000))
  rw [Int64.toInt_minValue] at hmin
  omega

end ZXCAmount

/-! ## IOUAmount -/

/-- `IOUAmount`: `std::int64_t mantissa_` and `int exponent_`, kept as integers; `normalize`
bounds the mantissa by `maxMantissa`. -/
structure IOUAmount where
  mantissa : Int
  exponent : Int
deriving DecidableEq, Repr

namespace IOUAmount

def minMantissa : Int := 1000000000000000
def maxMantissa : Int := 9999999999999999
def minExponent : Int := -96
def maxExponent : Int := 80

/-- `zero`: mantissa `0` at exponent `-100`, so that zero sorts below small amounts. -/
def zero : IOUAmount := ⟨0, -100⟩

/-- The number an amount stands for. -/
def toRat (a : IOUAmount) : ℚ := a.mantissa * (10 : ℚ) ^ a.exponent

/-- `while ((mantissa_ < minMantissa) && (exponent_ > minExponent)) { mantissa_ *= 10; --exponent_; }`,
which runs at most the distance to `minExponent`. -/
def growLoop : Nat → Int → Int → Int × Int
  | 0, m, e => (m, e)
  | n + 1, m, e => if m < minMantissa ∧ e > minExponent then growLoop n (m * 10) (e - 1) else (m, e)

/-- `while (mantissa_ > maxMantissa) { if (exponent_ >= maxExponent) throw; mantissa_ /= 10;
++exponent_; }`, which runs at most the distance to `maxExponent`. -/
def shrinkLoop : Nat → Int → Int → Except String (Int × Int)
  | 0, m, e => if m > maxMantissa then .error "IOUAmount::normalize" else .ok (m, e)
  | n + 1, m, e =>
    if m > maxMantissa then
      if e ≥ maxExponent then .error "IOUAmount::normalize" else shrinkLoop n (m / 10) (e + 1)
    else .ok (m, e)

/-- `IOUAmount (mantissa, exponent)`, which calls `normalize`: the magnitude is brought into
`[minMantissa, maxMantissa]`, truncating; what falls below `minExponent` is zero. -/
def normalize (mantissa exponent : Int) : Except String IOUAmount :=
  if mantissa = 0 then .ok zero
  else
    let negative := mantissa < 0
    let m := if negative then -mantissa else mantissa
    let (m, e) := growLoop (exponent - minExponent).toNat m exponent
    match shrinkLoop (maxExponent - e).toNat m e with
    | .error err => .error err
    | .ok (m, e) =>
      if e < minExponent ∨ m < minMantissa then .ok zero
      else if e > maxExponent then .error "value overflow"
      else .ok ⟨if negative then -m else m, e⟩

/-- `log10Ceil`: the index of the first of `10^0, …, 10^29` not below `v` (`lower_bound`). -/
def log10Ceil (v : Nat) : Nat := ((List.range 30).map (10 ^ ·)).findIdx fun p => decide (v ≤ p)

/-- `log10Floor`: `log10Ceil`, less one unless `v` is that power. -/
def log10Floor (v : Nat) : Int :=
  let i := log10Ceil v
  if 10 ^ i ≠ v then i - 1 else i

/-- `fl64`: `log10Floor` of the largest `std::int64_t`, eighteen. -/
def fl64 : Int := log10Floor (2 ^ 63 - 1)

/-- The scaling of `mulRatio` when the division leaves a remainder: `low` and `rem` are multiplied
by ten as often as `low` has room below `10^fl64`, and what the remainder then adds is added. -/
def scaleRemainder (den low rem : Nat) (exponent : Int) : Nat × Nat × Int :=
  let roomToGrow : Int := fl64 - log10Ceil low
  let (low, rem, exponent) :=
    if roomToGrow > 0 then
      (low * 10 ^ roomToGrow.toNat, rem * 10 ^ roomToGrow.toNat, exponent - roomToGrow)
    else (low, rem, exponent)
  let addRem := rem / den
  (low + addRem, rem - addRem * den, exponent)

/-- `mulRatio (IOUAmount, num, den, roundUp)`: the quotient of the 128-bit product, scaled, shrunk
to at most `fl64` digits, normalized, and moved one unit up (or down for a negative amount rounded
down) when a remainder was seen. -/
def mulRatio (amt : IOUAmount) (num den : UInt32) (roundUp : Bool) : Except String IOUAmount :=
  if den = 0 then .error "division by zero"
  else
    let neg := amt.mantissa < 0
    let mul : Nat := (if neg then -amt.mantissa else amt.mantissa).toNat * num.toNat
    let low := mul / den.toNat
    let rem := mul - low * den.toNat
    let (low, rem, exponent) :=
      if rem ≠ 0 then scaleRemainder den.toNat low rem amt.exponent else (low, rem, amt.exponent)
    let hasRem := rem ≠ 0
    let mustShrink : Int := log10Ceil low - fl64
    let (low, exponent, hasRem) :=
      if mustShrink > 0 then
        let sav := low
        let low := low / 10 ^ mustShrink.toNat
        (low, exponent + mustShrink, hasRem || sav - low * 10 ^ mustShrink.toNat ≠ 0)
      else (low, exponent, decide hasRem)
    let mantissa : Int := if neg then -(low : Int) else low
    match normalize mantissa exponent with
    | .error err => .error err
    | .ok result =>
      if hasRem then
        -- handle rounding
        if roundUp && !neg then
          if result.mantissa = 0 then normalize minMantissa minExponent
          else normalize (result.mantissa + 1) result.exponent
        else if !roundUp && neg then
          if result.mantissa = 0 then normalize (-minMantissa) minExponent
          else normalize (result.mantissa - 1) result.exponent
        else .ok result
      else .ok result

/-- Rounding up is lost on an exact quotient of seventeen digits. `maxMantissa * 2000000000 /
1000000000` divides exactly, so no remainder is seen, and `normalize` truncates the quotient
`19999999999999998` to `1999999999999999e1`, below it. -/
theorem mulRatio_roundUp_exact_below :
    mulRatio ⟨9999999999999999, 0⟩ 2000000000 1000000000 true = .ok ⟨1999999999999999, 1⟩ ∧
      toRat ⟨1999999999999999, 1⟩ < toRat ⟨9999999999999999, 0⟩ * 2000000000 / 1000000000 := by
  refine ⟨by decide, ?_⟩
  simp only [toRat]
  norm_num

end IOUAmount

end Ripple
