import ChainSqld.Protocol.STAmount
import Mathlib.Algebra.Order.Field.Rat
import Mathlib.Algebra.Order.Field.Power
import Mathlib.Tactic.NormNum
import Mathlib.Tactic.Ring

/-!
# Arithmetic on STAmount

The products and quotients of `STAmount.cpp`. Two mantissas, each brought into
`[cMinValue, cMaxValue]` (a native one by multiplying it up), are multiplied in 128 bits and divided
back to about sixteen digits (`muldiv`, `muldiv_round`); the constructor
`STAmount (Issue, mantissa, exponent, negative)` (`ofParts`) then canonicalizes the result, which
truncates the digits it drops.

`mulRound` and `divRound` are to round away from zero when asked to (`roundUp` for a positive
result): they add the largest remainder before dividing, and `canonicalizeRound` adds `9` or `10`
before the last of the divisions it does itself. But the divisions before that last one truncate, so
a digit dropped there is lost; the result can lie below the exact product that it is meant to bound
from above (`mulRound_roundUp_below_product`), for a native and for an issued target.

`toRat` is the number an amount stands for.
-/

set_option autoImplicit false

namespace Ripple

namespace STAmount

/-! ## Values -/

/-- The number an amount stands for, `mValue * 10 ^ mOffset`, negated when `mIsNegative`. -/
def toRat (a : STAmount) : ℚ :=
  (if a.mIsNegative then -1 else 1) * (a.mValue.toNat : ℚ) * (10 : ℚ) ^ a.mOffset

/-- `noIssue ()`: the currency and the issuer `1`. -/
def noIssue : Issue := ⟨⟨List.replicate 19 0 ++ [1], rfl⟩, ⟨List.replicate 19 0 ++ [1], rfl⟩⟩

/-- `STAmount (Issue, std::uint64_t mantissa, int exponent, bool negative)`: the fields, then
`canonicalize`, which sets `mIsNative`. -/
def ofParts (issue : Issue) (mantissa : UInt64) (exponent : Int) (negative : Bool) :
    Except String STAmount :=
  canonicalize ⟨issue, mantissa, exponent, false, negative⟩

/-- `STAmount (Issue)`, the zero of an issue, also written `{issue}`. -/
def zeroOf (issue : Issue) : Except String STAmount := ofParts issue 0 0 false

/-- The native loop `while (mOffset > 0) { mValue *= 10; --mOffset; }` of `canonicalize` wraps
around `2^64` before the range check: a native amount of `1844674407370955162 * 10` drops, far
above `cMaxNativeN`, is accepted as four drops. -/
theorem ofParts_native_wraps :
    ofParts zxcIssue 1844674407370955162 1 false = .ok ⟨zxcIssue, 4, 0, true, false⟩ ∧
      cMaxNativeN.toNat < 1844674407370955162 * 10 :=
  ⟨by decide, by decide⟩

/-! ## What canonicalize returns for an issued amount -/

/-- An issued amount in canonical range. -/
structure InRange (a : STAmount) : Prop where
  value_ge : cMinValue ≤ a.mValue
  value_le : a.mValue ≤ cMaxValue
  offset_ge : cMinOffset ≤ a.mOffset
  offset_le : a.mOffset ≤ cMaxOffset

theorem shrinkMantissa_le : ∀ {n : Nat} {v : UInt64} {o : Int} {v' : UInt64} {o' : Int},
    shrinkMantissa n v o = .ok (v', o') → v' ≤ cMaxValue
  | 0, v, o, v', o', h => by
    unfold shrinkMantissa at h
    split_ifs at h with hv
    cases h
    exact UInt64.not_lt.mp hv
  | n + 1, v, o, v', o', h => by
    unfold shrinkMantissa at h
    split_ifs at h with hv ho
    · exact shrinkMantissa_le h
    · cases h
      exact UInt64.not_lt.mp hv

/-- `canonicalize` of an issued amount keeps the issue and the sign, and gives the issued zero or
an amount in range. -/
theorem canonicalize_issued_cases {a b : STAmount} (hc : isZXC a.mIssue.currency = false)
    (h : canonicalize a = .ok b) :
    b.mIssue = a.mIssue ∧ b.mIsNative = false ∧
      ((b.mValue = 0 ∧ b.mOffset = -100 ∧ b.mIsNegative = false) ∨
        (InRange b ∧ b.mIsNegative = a.mIsNegative)) := by
  unfold canonicalize at h
  rw [if_neg (by simp [hc])] at h
  split_ifs at h with h0
  · cases h
    exact ⟨rfl, rfl, Or.inl ⟨h0, rfl, rfl⟩⟩
  · -- the two loops, then the range checks
    obtain ⟨v, o⟩ := growMantissa (a.mOffset - cMinOffset).toNat a.mValue a.mOffset
    dsimp only at h
    obtain ⟨⟨v', o'⟩, hs, h⟩ := Except.bind_eq_ok h
    dsimp only at h
    split_ifs at h with hlow hhigh
    · cases h
      exact ⟨rfl, rfl, Or.inl ⟨rfl, rfl, rfl⟩⟩
    · cases h
      rw [not_or] at hlow
      exact ⟨rfl, rfl, Or.inr ⟨⟨UInt64.not_lt.mp hlow.2, shrinkMantissa_le hs, not_lt.mp hlow.1,
        not_lt.mp hhigh⟩, rfl⟩⟩

/-- The constructor on an issued amount. -/
theorem ofParts_issued_cases {issue : Issue} {v : UInt64} {o : Int} {neg : Bool} {b : STAmount}
    (hc : isZXC issue.currency = false) (h : ofParts issue v o neg = .ok b) :
    b.mIssue = issue ∧ b.mIsNative = false ∧
      ((b.mValue = 0 ∧ b.mOffset = -100 ∧ b.mIsNegative = false) ∨ (InRange b ∧ b.mIsNegative = neg)) :=
  canonicalize_issued_cases hc h

/-- The constructor keeps an issued amount in range as it is. -/
theorem ofParts_inRange {issue : Issue} {v : UInt64} {o : Int} {neg : Bool} (hc : isZXC issue.currency = false)
    (hr : InRange ⟨issue, v, o, false, neg⟩) : ofParts issue v o neg = .ok ⟨issue, v, o, false, neg⟩ :=
  canonicalize_issued hc hr.value_ge hr.value_le hr.offset_ge hr.offset_le

/-! ## The order of values in range -/

theorem toRat_of_not_neg {a : STAmount} (h : a.mIsNegative = false) :
    a.toRat = (a.mValue.toNat : ℚ) * (10 : ℚ) ^ a.mOffset := by
  simp [toRat, h]

/-- A positive amount in range at a lower offset is worth less, whatever the mantissas. -/
theorem toRat_lt_of_offset_lt {a b : STAmount} (ha : InRange a) (hb : InRange b) (hna : a.mIsNegative = false)
    (hnb : b.mIsNegative = false) (h : a.mOffset < b.mOffset) : a.toRat < b.toRat := by
  obtain ⟨n, hn⟩ : ∃ n : Nat, b.mOffset = a.mOffset + (n + 1 : Nat) := ⟨(b.mOffset - a.mOffset - 1).toNat, by omega⟩
  -- in Nat: the mantissa of `a` is below `10^16`, that of `b` times `10^(n+1)` is not
  have hva : a.mValue.toNat < 10 ^ 16 := by
    have := UInt64.le_iff_toNat_le.mp ha.value_le
    simp only [cMaxValue, UInt64.reduceToNat] at this
    omega
  have hvb : 10 ^ 15 ≤ b.mValue.toNat := by
    have := UInt64.le_iff_toNat_le.mp hb.value_ge
    simpa [cMinValue] using this
  have hnat : a.mValue.toNat < b.mValue.toNat * 10 ^ (n + 1) := by
    calc a.mValue.toNat < 10 ^ 16 := hva
      _ = 10 ^ 15 * 10 ^ 1 := by norm_num
      _ ≤ b.mValue.toNat * 10 ^ (n + 1) :=
        Nat.mul_le_mul hvb (Nat.pow_le_pow_right (by norm_num) (by omega))
  have hpos : (0 : ℚ) < 10 ^ a.mOffset := zpow_pos (by norm_num) _
  rw [toRat_of_not_neg hna, toRat_of_not_neg hnb, hn, zpow_add₀ (by norm_num), zpow_natCast]
  calc (a.mValue.toNat : ℚ) * 10 ^ a.mOffset < (b.mValue.toNat * 10 ^ (n + 1) : ℕ) * 10 ^ a.mOffset :=
        mul_lt_mul_of_pos_right (by exact_mod_cast hnat) hpos
    _ = b.mValue.toNat * (10 ^ a.mOffset * 10 ^ (n + 1)) := by push_cast; ring

/-- Positive amounts in range are ordered by offset, then by mantissa. -/
theorem toRat_lt_iff {a b : STAmount} (ha : InRange a) (hb : InRange b) (hna : a.mIsNegative = false)
    (hnb : b.mIsNegative = false) :
    a.toRat < b.toRat ↔ a.mOffset < b.mOffset ∨ (a.mOffset = b.mOffset ∧ a.mValue < b.mValue) := by
  constructor
  · intro h
    rcases lt_trichotomy a.mOffset b.mOffset with ho | ho | ho
    · exact Or.inl ho
    · refine Or.inr ⟨ho, ?_⟩
      rw [toRat_of_not_neg hna, toRat_of_not_neg hnb, ho] at h
      have := lt_of_mul_lt_mul_right h (zpow_pos (by norm_num : (0 : ℚ) < 10) _).le
      exact UInt64.lt_iff_toNat_lt.mpr (by exact_mod_cast this)
    · exact absurd h (not_lt.mpr (toRat_lt_of_offset_lt hb ha hnb hna ho).le)
  · rintro (ho | ⟨ho, hv⟩)
    · exact toRat_lt_of_offset_lt ha hb hna hnb ho
    · rw [toRat_of_not_neg hna, toRat_of_not_neg hnb, ho]
      apply mul_lt_mul_of_pos_right _ (zpow_pos (by norm_num) _)
      exact_mod_cast UInt64.lt_iff_toNat_lt.mp hv

/-! ## The helpers of `STAmount.cpp` -/

def tenTo14 : UInt64 := 100000000000000
def tenTo14m1 : UInt64 := tenTo14 - 1
def tenTo17 : UInt64 := tenTo14 * 1000

/-- `getSNValue`: the signed drops of a native amount. -/
def getSNValue (amount : STAmount) : Except String Int64 :=
  if !amount.mIsNative then .error "amount is not native!"
  else
    let ret := amount.mValue.toInt64
    .ok (if amount.mIsNegative then -ret else ret)

/-- The native-times-native branch shared by `multiply` and `mulRound`: the smaller and the larger
signed value, taken as unsigned, are bounded so the product fits, and the product is a native
amount (`STAmount (SField, std::uint64_t)`, positive, of the default issue). -/
def nativeProduct (v1 v2 : STAmount) : Except String STAmount := do
  let s1 ← getSNValue v1
  let s2 ← getSNValue v2
  let minV : UInt64 := (if s1 < s2 then s1 else s2).toUInt64
  let maxV : UInt64 := (if s1 < s2 then s2 else s1).toUInt64
  -- sqrt(cMaxNative)
  if minV > 3000000000 then throw "Native value overflow"
  -- cMaxNative / 2^32
  if (maxV >>> 32) * minV > 2095475792 then throw "Native value overflow"
  return ⟨zxcIssue, minV * maxV, 0, true, false⟩

/-- `while (value < cMinValue) { value *= 10; --offset; }` on the mantissa of a native amount;
from a non-zero mantissa fifteen passes reach `cMinValue`. -/
def bringIntoRange : Nat → UInt64 → Int → UInt64 × Int
  | 0, v, o => (v, o)
  | n + 1, v, o => if v < cMinValue then bringIntoRange n (v * 10) (o - 1) else (v, o)

/-- The mantissa and offset an operand enters a product or quotient with. -/
def operand (a : STAmount) : UInt64 × Int :=
  if a.mIsNative then bringIntoRange 15 a.mValue a.mOffset else (a.mValue, a.mOffset)

/-- `muldiv`: `multiplier * multiplicand / divisor` in 128 bits, which must fit in 64. -/
def muldiv (multiplier multiplicand divisor : UInt64) : Except String UInt64 :=
  if divisor = 0 then .error "Division by zero."
  else
    let ret := multiplier.toNat * multiplicand.toNat / divisor.toNat
    if ret > UInt64.size - 1 then
      .error ("overflow: (" ++ toString multiplier ++ " * " ++ toString multiplicand ++ ") / " ++
        toString divisor)
    else .ok ret.toUInt64

/-- `muldiv_round`: `(multiplier * multiplicand + rounding) / divisor` in 128 bits. -/
def muldivRound (multiplier multiplicand divisor rounding : UInt64) : Except String UInt64 :=
  if divisor = 0 then .error "Division by zero."
  else
    let ret := (multiplier.toNat * multiplicand.toNat + rounding.toNat) / divisor.toNat
    if ret > UInt64.size - 1 then
      .error ("overflow: ((" ++ toString multiplier ++ " * " ++ toString multiplicand ++ ") + " ++
        toString rounding ++ ") / " ++ toString divisor)
    else .ok ret.toUInt64

/-! ## Products and quotients -/

/-- `divide`: the quotient of the mantissas scaled by `10^17`, plus `5`, canonicalized. -/
def divide (num den : STAmount) (issue : Issue) : Except String STAmount :=
  if den.mValue = 0 then .error "division by zero"
  else if num.mValue = 0 then zeroOf issue
  else do
    let (numVal, numOffset) := operand num
    let (denVal, denOffset) := operand den
    let q ← muldiv numVal tenTo17 denVal
    ofParts issue (q + 5) (numOffset - denOffset - 17) (num.mIsNegative != den.mIsNegative)

/-- `divide` returns the zero of the issue for a zero numerator, and otherwise what the constructor
makes of some mantissa and offset, with the sign of the quotient. -/
theorem divide_eq_ok {num den : STAmount} {issue : Issue} {r : STAmount} (h : divide num den issue = .ok r) :
    (num.mValue = 0 ∧ zeroOf issue = .ok r) ∨
      ∃ v o, ofParts issue v o (num.mIsNegative != den.mIsNegative) = .ok r := by
  unfold divide at h
  split_ifs at h with hd hn
  · exact Or.inl ⟨hn, h⟩
  · generalize operand num = pn at h
    generalize operand den = pd at h
    obtain ⟨numVal, numOffset⟩ := pn
    obtain ⟨denVal, denOffset⟩ := pd
    obtain ⟨q, -, h⟩ := Except.bind_eq_ok h
    exact Or.inr ⟨_, _, h⟩

/-- `multiply`: the product of the mantissas divided by `10^14`, plus `7`, canonicalized. -/
def multiply (v1 v2 : STAmount) (issue : Issue) : Except String STAmount :=
  if v1.mValue = 0 ∨ v2.mValue = 0 then zeroOf issue
  else if v1.mIsNative && v2.mIsNative && isZXC issue.currency then nativeProduct v1 v2
  else do
    let (value1, offset1) := operand v1
    let (value2, offset2) := operand v2
    let p ← muldiv value1 value2 tenTo14
    ofParts issue (p + 7) (offset1 + offset2 + 14) (v1.mIsNegative != v2.mIsNegative)

/-- `while (offset < -1) { value /= 10; ++offset; ++loops; }` of `canonicalizeRound`. -/
def roundNativeLoop : Nat → UInt64 → Int → Nat → UInt64 × Int × Nat
  | 0, v, o, loops => (v, o, loops)
  | n + 1, v, o, loops => if o < -1 then roundNativeLoop n (v / 10) (o + 1) (loops + 1) else (v, o, loops)

/-- `while (value > (10 * cMaxValue)) { value /= 10; ++offset; }` of `canonicalizeRound`; twenty
passes bring any 64-bit value down. -/
def roundIssuedLoop : Nat → UInt64 → Int → UInt64 × Int
  | 0, v, o => (v, o)
  | n + 1, v, o => if v > 10 * cMaxValue then roundIssuedLoop n (v / 10) (o + 1) else (v, o)

/-- `canonicalizeRound`: a native result is brought to offset `0` and an issued one below
`cMaxValue`, the last division rounding up. -/
def canonicalizeRound (native : Bool) (value : UInt64) (offset : Int) : UInt64 × Int :=
  if native then
    if offset < 0 then
      let (v, o, loops) := roundNativeLoop (-1 - offset).toNat value offset 0
      -- add before last divide
      ((v + if loops ≥ 2 then 9 else 10) / 10, o + 1)
    else (value, offset)
  else if value > cMaxValue then
    let (v, o) := roundIssuedLoop 20 value offset
    -- add before last divide
    ((v + 9) / 10, o + 1)
  else (value, offset)

/-- The end of `mulRound` and `divRound`: the result, or, when rounding a positive result up gave
zero and the switchover is on, the smallest positive amount. -/
def roundResult (switchover switchover2 : Bool) (issue : Issue) (roundUp resultNegative : Bool)
    (amount : UInt64) (offset : Int) : Except String STAmount := do
  let result ← ofParts issue amount offset resultNegative
  if roundUp && !resultNegative && result.mValue = 0 && switchover then
    -- return the smallest value above zero
    if isZXC issue.currency && switchover2 then ofParts issue 1 0 resultNegative
    else ofParts issue cMinValue cMinOffset resultNegative
  else return result

/-- `mulRound`. `switchover` and `switchover2` are `stAmountCalcSwitchover` and
`stAmountCalcSwitchover2`. Rounding away from zero adds `tenTo14m1` before the division and goes
through `canonicalizeRound`. -/
def mulRound (switchover switchover2 : Bool) (v1 v2 : STAmount) (issue : Issue) (roundUp : Bool) :
    Except String STAmount :=
  if v1.mValue = 0 ∨ v2.mValue = 0 then zeroOf issue
  else
    let zxc := isZXC issue.currency
    if v1.mIsNative && v2.mIsNative && zxc then nativeProduct v1 v2
    else do
      let (value1, offset1) := operand v1
      let (value2, offset2) := operand v2
      let resultNegative := v1.mIsNegative != v2.mIsNegative
      let amount ← muldivRound value1 value2 tenTo14 (if resultNegative != roundUp then tenTo14m1 else 0)
      let offset := offset1 + offset2 + 14
      let (amount, offset) :=
        if resultNegative != roundUp then canonicalizeRound zxc amount offset else (amount, offset)
      roundResult switchover switchover2 issue roundUp resultNegative amount offset

/-- `divRound`: as `mulRound`, with `denVal - 1` added before the division. -/
def divRound (switchover switchover2 : Bool) (num den : STAmount) (issue : Issue) (roundUp : Bool) :
    Except String STAmount :=
  if den.mValue = 0 then .error "division by zero"
  else if num.mValue = 0 then zeroOf issue
  else do
    let (numVal, numOffset) := operand num
    let (denVal, denOffset) := operand den
    let resultNegative := num.mIsNegative != den.mIsNegative
    let amount ← muldivRound numVal tenTo17 denVal (if resultNegative != roundUp then denVal - 1 else 0)
    let offset := numOffset - denOffset - 17
    let (amount, offset) :=
      if resultNegative != roundUp then canonicalizeRound (isZXC issue.currency) amount offset
      else (amount, offset)
    roundResult switchover switchover2 issue roundUp resultNegative amount offset

/-- Rounding up is not kept. A product of `1.001` and one drop, rounded up to drops, comes out as
one drop: the fifteen divisions `canonicalizeRound` does before its last truncate the `.001`. And
`9.999999999999999` squared, rounded up to sixteen digits, comes out as `99.99999999999998`, below
the product: the division that brings the 18-digit intermediate under `10 * cMaxValue` drops a
digit before the `9` is added. This holds whatever the switchovers. -/
theorem mulRound_roundUp_below_product (switchover switchover2 : Bool) :
    (∃ r, mulRound switchover switchover2 ⟨noIssue, 1001000000000000, -15, false, false⟩
        ⟨zxcIssue, 1, 0, true, false⟩ zxcIssue true = .ok r ∧
      r.toRat < toRat ⟨noIssue, 1001000000000000, -15, false, false⟩ * toRat ⟨zxcIssue, 1, 0, true, false⟩) ∧
    (∃ r, mulRound switchover switchover2 ⟨noIssue, 9999999999999999, -15, false, false⟩
        ⟨noIssue, 9999999999999999, -15, false, false⟩ noIssue true = .ok r ∧
      r.toRat < toRat ⟨noIssue, 9999999999999999, -15, false, false⟩ *
        toRat ⟨noIssue, 9999999999999999, -15, false, false⟩) := by
  refine ⟨⟨⟨zxcIssue, 1, 0, true, false⟩, ?_, ?_⟩, ⟨⟨noIssue, 9999999999999998, -14, false, false⟩, ?_, ?_⟩⟩
  · cases switchover <;> cases switchover2 <;> decide
  · simp only [toRat, UInt64.reduceToNat]
    norm_num
  · cases switchover <;> cases switchover2 <;> decide
  · simp only [toRat, UInt64.reduceToNat]
    norm_num

end STAmount

end Ripple
