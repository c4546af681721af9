import ChainSqld.Protocol.Quality
import ChainSqld.Protocol.MulRatio

/-!
# Issued amounts as `STAmount` and as `IOUAmount`

The legacy payment code keeps an issued amount as an `STAmount` (an unsigned mantissa with a sign
flag), the flow code as an `IOUAmount` (a signed mantissa). Both add by truncating the operand of
lower exponent to the other's exponent, send a sum within ten units of the last place to zero and
bring the rest into range (`canonicalize`, `normalize`); both compare by sign, zero, exponent and
mantissa. `STAmount::iou` and the constructor `STAmount (IOUAmount, Issue)` convert between them.

* `canonicalize_iou`: `canonicalize` followed by `iou` is `normalize`, up to the text of the
  exception, for every sign and magnitude;
* `plus_iou`: the sum of two canonical issued amounts of one issue, converted, is the sum of the
  converted amounts, and one throws exactly when the other does;
* `lessThan_iou`: the two orders agree on canonical issued amounts;
* `iou_ofIOUAmount`: a normalized `IOUAmount` comes back from an `STAmount` unchanged.

The mantissas are cast to `std::int64_t`; below `2^63`, which every amount `canonicalize`
produces is, the cast keeps the value and the signed arithmetic after it does not overflow, so it
is done on integers here.
-/

set_option autoImplicit false

namespace Ripple

/-- `while (exponent < e) { mantissa /= 10; ++exponent; }`, the alignment loop of both additions,
run at most `e - exponent` times; the division truncates towards zero. -/
def raiseTo (e : Int) : Nat → Int → Int → Int × Int
  | 0, m, x => (m, x)
  | n + 1, m, x => if x < e then raiseTo e n (m.tdiv 10) (x + 1) else (m, x)

/-- Aligning never grows the magnitude of a mantissa. -/
theorem raiseTo_natAbs_le (e : Int) : ∀ (n : Nat) (m x : Int), (raiseTo e n m x).1.natAbs ≤ m.natAbs
  | 0, _, _ => le_rfl
  | n + 1, m, x => by
    unfold raiseTo
    split
    · calc (raiseTo e n (m.tdiv 10) (x + 1)).1.natAbs ≤ (m.tdiv 10).natAbs := raiseTo_natAbs_le e n _ _
        _ ≤ m.natAbs := by
          rw [Int.natAbs_tdiv]
          exact Nat.div_le_self _ _
    · exact le_rfl

namespace IOUAmount

/-- `operator<`: by sign (zero counts as positive), then zero, then exponent, then mantissa. -/
def lessThan (a other : IOUAmount) : Bool :=
  let lneg : Bool := a.mantissa < 0
  let rneg : Bool := other.mantissa < 0
  if lneg != rneg then lneg
  else if a.mantissa = 0 then other.mantissa > 0
  else if other.mantissa = 0 then false
  else if a.exponent > other.exponent then lneg
  else if a.exponent < other.exponent then !lneg
  else a.mantissa < other.mantissa

/-- `operator+`, which `boost::additive` builds from `operator+=` on a copy of the left operand. -/
def plus (a other : IOUAmount) : Except String IOUAmount :=
  if other = zero then .ok a
  else if a = zero then .ok other
  else
    let (m1, e1) := raiseTo other.exponent (other.exponent - a.exponent).toNat a.mantissa a.exponent
    let (m2, _) := raiseTo e1 (e1 - other.exponent).toNat other.mantissa other.exponent
    let s := m1 + m2
    if -10 ≤ s ∧ s ≤ 10 then .ok zero
    else normalize s e1

/-- What `normalize` produces: zero, or a mantissa of sixteen digits, of either sign, at an
exponent in range. -/
inductive Normalized : IOUAmount → Prop
  | zero : Normalized zero
  | pos {m e : Int} (hm : minMantissa ≤ m) (hm' : m ≤ maxMantissa) (he : minExponent ≤ e)
      (he' : e ≤ maxExponent) : Normalized ⟨m, e⟩
  | neg {m e : Int} (hm : minMantissa ≤ m) (hm' : m ≤ maxMantissa) (he : minExponent ≤ e)
      (he' : e ≤ maxExponent) : Normalized ⟨-m, e⟩

end IOUAmount

namespace STAmount

/-- `static_cast<std::int64_t> (mValue)`, negated when `mIsNegative`. -/
def signedMantissa (a : STAmount) : Int :=
  if a.mIsNegative then -(a.mValue.toNat : Int) else a.mValue.toNat

/-- `STAmount (SField const&, std::int64_t)`: a native amount at offset zero, whose sign `set`
takes off. -/
def nativeOf (v : Int64) : STAmount :=
  if v < 0 then ⟨zxcIssue, (-v).toUInt64, 0, true, true⟩ else ⟨zxcIssue, v.toUInt64, 0, true, false⟩

/-- `operator+ (STAmount, STAmount)`. -/
def plus (v1 v2 : STAmount) : Except String STAmount :=
  if !areComparable v1 v2 then .error "Can't add amounts that are't comparable!"
  else if v2.mValue = 0 then .ok v1
  -- the result is in terms of the currency and issuer of `v1`
  else if v1.mValue = 0 then ofParts v1.mIssue v2.mValue v2.mOffset v2.mIsNegative
  else if v1.mIsNative then do
    let s1 ← getSNValue v1
    let s2 ← getSNValue v2
    pure (nativeOf (s1 + s2))
  else
    let (vv1, ov1) := raiseTo v2.mOffset (v2.mOffset - v1.mOffset).toNat (signedMantissa v1) v1.mOffset
    let (vv2, _) := raiseTo ov1 (ov1 - v2.mOffset).toNat (signedMantissa v2) v2.mOffset
    let fv := vv1 + vv2
    if -10 ≤ fv ∧ fv ≤ 10 then zeroOf v1.mIssue
    else if fv ≥ 0 then ofParts v1.mIssue (UInt64.ofInt fv) ov1 false
    else ofParts v1.mIssue (UInt64.ofInt (-fv)) ov1 true

/-- `iou ()`: the signed mantissa and the offset, normalized; a native amount throws. -/
def iou (a : STAmount) : Except String IOUAmount :=
  if a.mIsNative then .error "Cannot return native STAmount as IOUAmount"
  else IOUAmount.normalize (signedMantissa a) a.mOffset

/-- `STAmount (IOUAmount const&, Issue const&)`: the sign from `amount < zero`, the magnitude of the
mantissa, the exponent as the offset, then `canonicalize`. -/
def ofIOUAmount (amount : IOUAmount) (issue : Issue) : Except String STAmount :=
  let neg := amount.lessThan IOUAmount.zero
  canonicalize ⟨issue, UInt64.ofInt (if neg then -amount.mantissa else amount.mantissa),
    amount.exponent, false, neg⟩

/-- The `IOUAmount` with an amount's own fields: its signed mantissa and its offset. -/
def toIOU (a : STAmount) : IOUAmount := ⟨signedMantissa a, a.mOffset⟩

end STAmount

/-! ## The two normalizations -/

namespace STAmount

theorem lt_cMinValue_iff (v : UInt64) : v < cMinValue ↔ (v.toNat : Int) < IOUAmount.minMantissa := by
  rw [UInt64.lt_iff_toNat_lt]
  simp only [cMinValue, UInt64.reduceToNat, IOUAmount.minMantissa]
  omega

theorem cMaxValue_lt_iff (v : UInt64) : cMaxValue < v ↔ IOUAmount.maxMantissa < (v.toNat : Int) := by
  rw [UInt64.lt_iff_toNat_lt]
  simp only [cMaxValue, UInt64.reduceToNat, IOUAmount.maxMantissa]
  omega

/-- The growing loop of `canonicalize` is that of `normalize` on the magnitude: it only multiplies
a mantissa below `cMinValue`, so the product does not wrap. -/
theorem growLoop_toNat : ∀ (n : Nat) (v : UInt64) (o : Int),
    IOUAmount.growLoop n v.toNat o = (((growMantissa n v o).1.toNat : Int), (growMantissa n v o).2)
  | 0, _, _ => rfl
  | n + 1, v, o => by
    by_cases h : v < cMinValue ∧ o > cMinOffset
    · have hv : v.toNat < 1000000000000000 := by
        have := UInt64.lt_iff_toNat_lt.mp h.1
        simpa [cMinValue] using this
      have h10 : ((v * 10).toNat : Int) = v.toNat * 10 := by
        have : (v * 10).toNat = v.toNat * 10 := by
          rw [UInt64.toNat_mul]
          simp only [UInt64.reduceToNat]
          omega
        rw [this]
        push_cast
        rfl
      have h' : (v.toNat : Int) < IOUAmount.minMantissa ∧ o > IOUAmount.minExponent :=
        ⟨(lt_cMinValue_iff v).mp h.1, h.2⟩
      simp only [growMantissa, IOUAmount.growLoop, if_pos h, if_pos h', ← h10]
      exact growLoop_toNat n (v * 10) (o - 1)
    · have h' : ¬ ((v.toNat : Int) < IOUAmount.minMantissa ∧ o > IOUAmount.minExponent) := by
        rwa [← lt_cMinValue_iff]
      simp only [growMantissa, IOUAmount.growLoop, if_neg h, if_neg h']

/-- The shrinking loop of `canonicalize` is that of `normalize` on the magnitude, up to the text of
the exception. -/
theorem shrinkLoop_toNat : ∀ (n : Nat) (v : UInt64) (o : Int),
    (IOUAmount.shrinkLoop n v.toNat o).toOption =
      (shrinkMantissa n v o).toOption.map fun p => ((p.1.toNat : Int), p.2)
  | 0, v, o => by
    by_cases h : cMaxValue < v
    · simp [IOUAmount.shrinkLoop, shrinkMantissa, h, (cMaxValue_lt_iff v).mp h]
    · simp [IOUAmount.shrinkLoop, shrinkMantissa, h, mt (cMaxValue_lt_iff v).mpr h]
  | n + 1, v, o => by
    by_cases h : cMaxValue < v
    · have h10 : ((v / 10).toNat : Int) = (v.toNat : Int) / 10 := by
        rw [UInt64.toNat_div]
        rfl
      by_cases ho : o ≥ cMaxOffset
      · simp [IOUAmount.shrinkLoop, shrinkMantissa, h, (cMaxValue_lt_iff v).mp h, ho,
          show o ≥ IOUAmount.maxExponent from ho]
      · have ho' : ¬ o ≥ IOUAmount.maxExponent := ho
        simp only [IOUAmount.shrinkLoop, shrinkMantissa, if_pos h, if_pos ((cMaxValue_lt_iff v).mp h), if_neg ho,
          if_neg ho', ← h10]
        exact shrinkLoop_toNat n (v / 10) (o + 1)
    · simp [IOUAmount.shrinkLoop, shrinkMantissa, h, mt (cMaxValue_lt_iff v).mpr h]

end STAmount

namespace IOUAmount

theorem growLoop_of_le {m : Int} (h : minMantissa ≤ m) : ∀ (n : Nat) (e : Int), growLoop n m e = (m, e)
  | 0, _ => rfl
  | n + 1, e => by simp [growLoop, not_lt.mpr h]

theorem shrinkLoop_of_le {m : Int} (h : m ≤ maxMantissa) : ∀ (n : Nat) (e : Int), shrinkLoop n m e = .ok (m, e)
  | 0, _ => by simp [shrinkLoop, not_lt.mpr h]
  | n + 1, _ => by simp [shrinkLoop, not_lt.mpr h]

@[simp] theorem normalize_zero (e : Int) : normalize 0 e = .ok zero := by
  simp [normalize]

/-- `normalize` keeps a mantissa of sixteen digits, of either sign, at an exponent in range. -/
theorem normalize_of_range {m e : Int} (neg : Bool) (hm : minMantissa ≤ m) (hm' : m ≤ maxMantissa)
    (he : minExponent ≤ e) (he' : e ≤ maxExponent) :
    normalize (if neg then -m else m) e = .ok ⟨if neg then -m else m, e⟩ := by
  have hpos : 0 < m := lt_of_lt_of_le (by decide) hm
  cases neg with
  | false =>
    simp [normalize, hpos.ne', not_lt.mpr hpos.le, growLoop_of_le hm, shrinkLoop_of_le hm',
      not_lt.mpr he, not_lt.mpr hm, not_lt.mpr he']
  | true =>
    simp [normalize, hpos.ne', hpos, growLoop_of_le hm, shrinkLoop_of_le hm',
      not_lt.mpr he, not_lt.mpr hm, not_lt.mpr he']

end IOUAmount

namespace STAmount

/-- `normalize` of an issued amount's signed mantissa and offset is `canonicalize` of the amount,
read back as an `IOUAmount`, up to the text of the exception: the two run the same loops on the
magnitude, with the same bounds. -/
theorem normalize_canonicalize {a : STAmount} (hc : isZXC a.mIssue.currency = false) :
    (IOUAmount.normalize a.signedMantissa a.mOffset).toOption = (canonicalize a).toOption.map toIOU := by
  by_cases h0 : a.mValue = 0
  · simp [IOUAmount.normalize, signedMantissa, h0, canonicalize, hc, toIOU, IOUAmount.zero]
  have hpos : 0 < a.mValue.toNat := by
    rcases Nat.eq_zero_or_pos a.mValue.toNat with h | h
    · exact absurd (UInt64.toNat_inj.mp (by simpa using h)) h0
    · exact h
  -- `normalize` takes the sign off, works on the magnitude and puts the sign back
  have hs : a.signedMantissa ≠ 0 := by
    unfold signedMantissa
    split <;> omega
  have hneg : (a.signedMantissa < 0) ↔ a.mIsNegative = true := by
    unfold signedMantissa
    split <;> simp_all
  have habs : (if a.signedMantissa < 0 then -a.signedMantissa else a.signedMantissa) = a.mValue.toNat := by
    unfold signedMantissa
    split <;> simp_all
  have hmin : IOUAmount.minExponent = cMinOffset := rfl
  have hmax : IOUAmount.maxExponent = cMaxOffset := rfl
  unfold IOUAmount.normalize canonicalize
  simp only [if_neg hs, hc, h0, habs, Bool.false_eq_true, if_false, hmin, hmax, growLoop_toNat]
  generalize growMantissa (a.mOffset - cMinOffset).toNat a.mValue a.mOffset = p
  obtain ⟨v, o⟩ := p
  have hsh := shrinkLoop_toNat (cMaxOffset - o).toNat v o
  cases hs' : shrinkMantissa (cMaxOffset - o).toNat v o with
  | error e =>
    rw [hs'] at hsh
    obtain ⟨e', he'⟩ := Except.toOption_eq_none.mp hsh
    simp [he']
  | ok q =>
    obtain ⟨v', o'⟩ := q
    rw [hs'] at hsh
    simp only [Except.toOption_eq_some.mp hsh, Except.ok_bind]
    -- the range checks after the loops are the same on both sides
    simp only [← lt_cMinValue_iff, hneg]
    cases hn : a.mIsNegative <;> simp only [Bool.false_eq_true, ↓reduceIte] <;> split_ifs <;>
      simp [toIOU, signedMantissa, IOUAmount.zero]

/-- `iou` reads an issued zero or an issued amount in range as it stands. -/
theorem iou_of_issued {b : STAmount} (hn : b.mIsNative = false)
    (h : (b.mValue = 0 ∧ b.mOffset = -100 ∧ b.mIsNegative = false) ∨ InRange b) : iou b = .ok b.toIOU := by
  rcases h with ⟨h0, ho, hneg⟩ | hr
  · simp [iou, hn, signedMantissa, h0, hneg, toIOU, ho, IOUAmount.zero]
  · have hv := UInt64.le_iff_toNat_le.mp hr.value_ge
    have hv' := UInt64.le_iff_toNat_le.mp hr.value_le
    simp only [cMinValue, cMaxValue, UInt64.reduceToNat] at hv hv'
    have := IOUAmount.normalize_of_range b.mIsNegative (m := b.mValue.toNat)
      (by simp [IOUAmount.minMantissa]; omega) (by simp [IOUAmount.maxMantissa]; omega)
      hr.offset_ge hr.offset_le
    simpa [iou, hn, signedMantissa, toIOU] using this

/-- A canonical issued amount converts to the `IOUAmount` of its own fields. -/
theorem iou_of_canonical {a : STAmount} (ha : Canonical a) (hn : a.mIsNative = false) : iou a = .ok a.toIOU := by
  cases ha with
  | native => cases hn
  | zero => exact iou_of_issued hn (Or.inl ⟨rfl, rfl, rfl⟩)
  | issued _ _ hv hv' ho ho' => exact iou_of_issued hn (Or.inr ⟨hv, hv', ho, ho'⟩)

/-- **`canonicalize` then `iou` is `normalize`.** For every issued amount, the `IOUAmount` of what
`canonicalize` makes of it is what `normalize` makes of its signed mantissa and offset, and one
throws exactly when the other does. -/
theorem canonicalize_iou {a : STAmount} (hc : isZXC a.mIssue.currency = false) :
    (canonicalize a >>= iou).toOption = (IOUAmount.normalize a.signedMantissa a.mOffset).toOption := by
  rw [normalize_canonicalize hc, Except.toOption_bind]
  cases h : canonicalize a with
  | error e => rfl
  | ok b =>
    obtain ⟨-, hn, hb⟩ := canonicalize_issued_cases hc h
    simp [iou_of_issued hn (hb.imp id And.left)]

/-- The constructor followed by `iou` is `normalize` of the signed mantissa. -/
theorem ofParts_iou {i : Issue} (hc : isZXC i.currency = false) (v : UInt64) (o : Int) (neg : Bool) :
    (ofParts i v o neg >>= iou).toOption =
      (IOUAmount.normalize (if neg then -(v.toNat : Int) else v.toNat) o).toOption :=
  canonicalize_iou (a := ⟨i, v, o, false, neg⟩) hc

/-! ## Canonical issued amounts -/

theorem Canonical.currency {a : STAmount} (ha : Canonical a) (hn : a.mIsNative = false) :
    isZXC a.mIssue.currency = false := by
  cases ha with
  | native => cases hn
  | zero hc => exact hc
  | issued hc => exact hc

theorem Canonical.toNat_le {a : STAmount} (ha : Canonical a) (hn : a.mIsNative = false) :
    a.mValue.toNat ≤ 9999999999999999 := by
  cases ha with
  | native => cases hn
  | zero => exact Nat.zero_le _
  | issued _ _ _ hv' => simpa [cMaxValue] using UInt64.le_iff_toNat_le.mp hv'

/-- A canonical issued amount that is not zero is in range. -/
theorem Canonical.inRange {a : STAmount} (ha : Canonical a) (hn : a.mIsNative = false) (h0 : a.mValue ≠ 0) :
    InRange a := by
  cases ha with
  | native => cases hn
  | zero => exact absurd rfl h0
  | issued _ _ hv hv' ho ho' => exact ⟨hv, hv', ho, ho'⟩

/-- Only the zero of an issue reads as the `IOUAmount` zero. -/
theorem toIOU_eq_zero_iff {a : STAmount} (ha : Canonical a) (hn : a.mIsNative = false) :
    a.toIOU = IOUAmount.zero ↔ a.mValue = 0 := by
  by_cases h0 : a.mValue = 0
  · cases ha with
    | native => cases hn
    | zero => simp [toIOU, signedMantissa, IOUAmount.zero]
    | issued _ _ hv =>
      simp only at h0
      rw [h0] at hv
      exact absurd hv (by decide)
  · have hv := UInt64.le_iff_toNat_le.mp (ha.inRange hn h0).value_ge
    simp only [cMinValue, UInt64.reduceToNat] at hv
    simp only [h0, iff_false]
    intro h
    have hm := congrArg IOUAmount.mantissa h
    simp only [toIOU, signedMantissa, IOUAmount.zero] at hm
    split at hm <;> omega

/-! ## Addition -/

/-- What both additions do with the aligned sum `fv` at offset `ov`: zero within ten units of the
last place, the amount of that sign and magnitude otherwise. -/
theorem sum_iou {i : Issue} (hc : isZXC i.currency = false) {fv : Int} (ov : Int) (hfv : fv.natAbs < 2 ^ 64) :
    ((if -10 ≤ fv ∧ fv ≤ 10 then zeroOf i
      else if fv ≥ 0 then ofParts i (UInt64.ofInt fv) ov false
      else ofParts i (UInt64.ofInt (-fv)) ov true) >>= iou).toOption =
      (if -10 ≤ fv ∧ fv ≤ 10 then .ok IOUAmount.zero else IOUAmount.normalize fv ov).toOption := by
  by_cases hsmall : -10 ≤ fv ∧ fv ≤ 10
  · rw [if_pos hsmall, if_pos hsmall, zeroOf, ofParts_iou hc]
    simp
  rw [if_neg hsmall, if_neg hsmall]
  by_cases hpos : fv ≥ 0
  · have hv : ((UInt64.ofInt fv).toNat : Int) = fv := by
      simp only [UInt64.ofInt]
      simp
      omega
    rw [if_pos hpos, ofParts_iou hc]
    simp only [Bool.false_eq_true, if_false, hv]
  · have hv : ((UInt64.ofInt (-fv)).toNat : Int) = -fv := by
      simp only [UInt64.ofInt]
      simp
      omega
    rw [if_neg hpos, ofParts_iou hc]
    simp only [if_true, hv, neg_neg]


/-- **The sums agree.** For two canonical issued amounts of one issue, the `IOUAmount` of their
`STAmount` sum is the `IOUAmount` sum of the two, and one throws exactly when the other does. -/
theorem plus_iou {a b : STAmount} (ha : Canonical a) (hb : Canonical b) (hna : a.mIsNative = false)
    (hnb : b.mIsNative = false) (hi : b.mIssue = a.mIssue) :
    (a.plus b >>= iou).toOption = (a.toIOU.plus b.toIOU).toOption := by
  have hc := ha.currency hna
  have hcmp : areComparable a b = true := by simp [areComparable, hna, hnb, hi]
  by_cases hb0 : b.mValue = 0
  · have hbz := (toIOU_eq_zero_iff hb hnb).mpr hb0
    simp [plus, hcmp, hb0, iou_of_canonical ha hna, IOUAmount.plus, hbz]
  have hbz : b.toIOU ≠ IOUAmount.zero := mt (toIOU_eq_zero_iff hb hnb).mp hb0
  by_cases ha0 : a.mValue = 0
  · -- the sum is `b` in the issue of `a`, which is the issue of `b`
    have haz := (toIOU_eq_zero_iff ha hna).mpr ha0
    simp only [plus, hcmp, hb0, ha0, Bool.not_true, Bool.false_eq_true, if_false, if_true,
      IOUAmount.plus, hbz, haz]
    rw [ofParts_iou hc, ← iou_of_canonical hb hnb]
    simp [iou, hnb, signedMantissa]
  have haz : a.toIOU ≠ IOUAmount.zero := mt (toIOU_eq_zero_iff ha hna).mp ha0
  simp only [plus, hcmp, hb0, ha0, hna, Bool.not_true, Bool.false_eq_true, if_false, IOUAmount.plus, hbz, haz]
  simp only [toIOU]
  -- both align with the same loop on the same signed mantissas, so they reach the same sum
  -- both align with the same loop on the same signed mantissas, so they reach the same sum
  have hmag1 := raiseTo_natAbs_le b.mOffset (b.mOffset - a.mOffset).toNat a.signedMantissa a.mOffset
  have hmag2 := raiseTo_natAbs_le (raiseTo b.mOffset (b.mOffset - a.mOffset).toNat a.signedMantissa a.mOffset).2
    ((raiseTo b.mOffset (b.mOffset - a.mOffset).toNat a.signedMantissa a.mOffset).2 - b.mOffset).toNat
    b.signedMantissa b.mOffset
  have hsa : a.signedMantissa.natAbs = a.mValue.toNat := by
    unfold signedMantissa
    split <;> simp
  have hsb : b.signedMantissa.natAbs = b.mValue.toNat := by
    unfold signedMantissa
    split <;> simp
  have hva := ha.toNat_le hna
  have hvb := hb.toNat_le hnb
  exact sum_iou hc _ (by omega)

/-- The agreement is up to the text of the exception: an overflow throws "value overflow" from
`canonicalize` and "IOUAmount::normalize" from `normalize`. -/
example : (⟨noIssue, 9999999999999999, 80, false, false⟩ : STAmount).plus ⟨noIssue, 9999999999999999, 80, false, false⟩ =
      .error "value overflow" ∧
    IOUAmount.plus ⟨9999999999999999, 80⟩ ⟨9999999999999999, 80⟩ = .error "IOUAmount::normalize" :=
  ⟨rfl, rfl⟩

/-! ## Comparison -/

/-- A canonical issued amount is negative exactly when its signed mantissa is. -/
theorem Canonical.neg_iff {a : STAmount} (ha : Canonical a) (hn : a.mIsNative = false) :
    a.signedMantissa < 0 ↔ a.mIsNegative = true := by
  cases ha with
  | native => cases hn
  | zero => simp [signedMantissa]
  | issued _ _ hv =>
    have hv' := UInt64.le_iff_toNat_le.mp hv
    simp only [cMinValue, UInt64.reduceToNat] at hv'
    unfold signedMantissa
    split
    · simp_all
      omega
    · simp_all

theorem signedMantissa_eq_zero_iff (a : STAmount) : a.signedMantissa = 0 ↔ a.mValue = 0 := by
  rw [← UInt64.toNat_inj]
  unfold signedMantissa
  split <;> simp

/-- Between amounts of one sign at one offset, the mantissa test of `operator< (STAmount)` is the
order of the signed mantissas. -/
theorem lessThan_mantissa {a b : STAmount} (hs : a.mIsNegative = b.mIsNegative) :
    (if a.mValue > b.mValue then .ok a.mIsNegative else if a.mValue < b.mValue then .ok !a.mIsNegative
      else .ok false : Except String Bool) = .ok (decide (a.signedMantissa < b.signedMantissa)) := by
  have hlt : ∀ x y : UInt64, x < y ↔ x.toNat < y.toNat := fun x y => UInt64.lt_iff_toNat_lt
  unfold signedMantissa
  rw [← hs]
  cases a.mIsNegative <;> simp only [gt_iff_lt, hlt, Bool.not_false, Bool.not_true, Bool.false_eq_true,
    if_false, if_true] <;> split_ifs <;> simp <;> omega

/-- **The orders agree.** On canonical issued amounts of one issue, `operator<` of `STAmount` does
not throw and says what `operator<` of `IOUAmount` says of the converted amounts. -/
theorem lessThan_iou {a b : STAmount} (ha : Canonical a) (hb : Canonical b) (hna : a.mIsNative = false)
    (hnb : b.mIsNative = false) (hi : b.mIssue = a.mIssue) :
    lessThan a b = .ok (a.toIOU.lessThan b.toIOU) := by
  have hcmp : areComparable a b = true := by simp [areComparable, hna, hnb, hi]
  unfold lessThan IOUAmount.lessThan
  simp only [hcmp, toIOU, ha.neg_iff hna, hb.neg_iff hnb, Bool.decide_eq_true, Bool.not_true,
    Bool.false_eq_true, if_false, signedMantissa_eq_zero_iff]
  by_cases hs : a.mIsNegative = b.mIsNegative
  swap
  · -- opposite signs: the negative one is the smaller
    have hne : (a.mIsNegative != b.mIsNegative) = true := by simpa using hs
    simp only [hne, if_true]
  have hne : ¬ (a.mIsNegative != b.mIsNegative) = true := by simp [hs]
  rw [if_neg hne, if_neg hne]
  by_cases ha0 : a.mValue = 0
  · -- a canonical zero is not negative, so neither is `b`
    have hA : a.mIsNegative = false := by
      cases ha with
      | native => cases hna
      | zero => rfl
      | issued _ _ hv =>
        simp only at ha0
        rw [ha0] at hv
        exact absurd hv (by decide)
    have hB : b.mIsNegative = false := hs ▸ hA
    have hpos : b.signedMantissa > 0 ↔ b.mValue ≠ 0 := by
      rw [show b.signedMantissa = b.mValue.toNat by simp [signedMantissa, hB], ne_eq, ← UInt64.toNat_inj]
      simp only [UInt64.reduceToNat]
      omega
    simp [ha0, hB, hpos, bne, beq_eq_decide]
  rw [if_neg ha0, if_neg ha0]
  by_cases hb0 : b.mValue = 0
  · rw [if_pos hb0, if_pos hb0]
  rw [if_neg hb0, if_neg hb0]
  -- both non-zero of one sign: by offset, then by mantissa
  by_cases hgt : a.mOffset > b.mOffset
  · rw [if_pos hgt, if_pos hgt]
  rw [if_neg hgt, if_neg hgt]
  by_cases hlt : a.mOffset < b.mOffset
  · rw [if_pos hlt, if_pos hlt]
  rw [if_neg hlt, if_neg hlt]
  exact lessThan_mantissa hs

/-! ## From `IOUAmount` back to `STAmount` -/

/-- `amount < zero` is the sign of the mantissa. -/
theorem lessThan_zero (x : IOUAmount) : x.lessThan IOUAmount.zero = decide (x.mantissa < 0) := by
  unfold IOUAmount.lessThan
  simp only [IOUAmount.zero, lt_self_iff_false, decide_false]
  by_cases hneg : x.mantissa < 0
  · simp [hneg]
  · by_cases h0 : x.mantissa = 0 <;> simp [hneg, h0]

/-- The constructor from an `IOUAmount` keeps a mantissa of sixteen digits, of either sign, at an
exponent in range: the magnitude becomes the mantissa and the sign the flag, and `iou` reads the
amount back. -/
theorem ofIOUAmount_iou_of_range {m e : Int} (neg : Bool) (hm : IOUAmount.minMantissa ≤ m)
    (hm' : m ≤ IOUAmount.maxMantissa) (he : IOUAmount.minExponent ≤ e) (he' : e ≤ IOUAmount.maxExponent)
    {issue : Issue} (hc : isZXC issue.currency = false) :
    (ofIOUAmount ⟨if neg then -m else m, e⟩ issue >>= iou) = .ok ⟨if neg then -m else m, e⟩ := by
  simp only [IOUAmount.minMantissa, IOUAmount.maxMantissa] at hm hm'
  have hsign : (IOUAmount.lessThan ⟨if neg then -m else m, e⟩ IOUAmount.zero) = neg := by
    rw [lessThan_zero]
    cases neg <;> simp <;> omega
  have hv : ((UInt64.ofInt m).toNat : Int) = m := by
    simp only [UInt64.ofInt]
    simp
    omega
  -- the amount the constructor builds, in range
  have hr : InRange ⟨issue, UInt64.ofInt m, e, false, neg⟩ := by
    refine ⟨UInt64.le_iff_toNat_le.mpr ?_, UInt64.le_iff_toNat_le.mpr ?_, he, he'⟩
    · simp only [cMinValue, UInt64.reduceToNat]
      omega
    · simp only [cMaxValue, UInt64.reduceToNat]
      omega
  have hmag : (if neg = true then -(if neg = true then -m else m) else if neg = true then -m else m) = m := by
    cases neg <;> simp
  have hb : ofIOUAmount ⟨if neg then -m else m, e⟩ issue = .ok ⟨issue, UInt64.ofInt m, e, false, neg⟩ := by
    unfold ofIOUAmount
    rw [hsign]
    dsimp only
    rw [hmag]
    exact ofParts_inRange hc hr
  rw [hb, Except.ok_bind, iou_of_issued rfl (Or.inr hr)]
  simp [toIOU, signedMantissa, hv]

/-- **`IOUAmount` to `STAmount` and back.** For every issue that is not ZXC's, a normalized
`IOUAmount` put into an `STAmount` converts back to itself. -/
theorem iou_ofIOUAmount {x : IOUAmount} (hx : x.Normalized) {issue : Issue} (hc : isZXC issue.currency = false) :
    (ofIOUAmount x issue >>= iou) = .ok x := by
  cases hx with
  | zero =>
    have h : ofIOUAmount IOUAmount.zero issue = .ok ⟨issue, 0, -100, false, false⟩ := by
      unfold ofIOUAmount
      rw [lessThan_zero]
      exact canonicalize_issued_zero hc rfl
    rw [h, Except.ok_bind, iou_of_issued rfl (Or.inl ⟨rfl, rfl, rfl⟩)]
    rfl
  | pos hm hm' he he' => exact ofIOUAmount_iou_of_range false hm hm' he he' hc
  | neg hm hm' he he' => exact ofIOUAmount_iou_of_range true hm hm' he he' hc

/-! ## The two engines agree -/

/-- **`STAmount` and `IOUAmount` agree on issued amounts.** For canonical issued amounts `a` and
`b` of one issue, `(a + b).iou ()` is `a.iou () + b.iou ()`, one throwing exactly when the other
does, and `a < b` is `a.iou () < b.iou ()`; every normalized `IOUAmount` comes back from
`STAmount (x, issue).iou ()` for an issue that is not ZXC's. -/
theorem iou_arithmetic_agrees :
    (∀ a b : STAmount, Canonical a → Canonical b → a.mIsNative = false → b.mIsNative = false →
      b.mIssue = a.mIssue →
        (a.plus b >>= iou).toOption = (do let x ← a.iou; let y ← b.iou; x.plus y).toOption ∧
          (do let x ← a.iou; let y ← b.iou; pure (x.lessThan y)) = lessThan a b) ∧
      ∀ (x : IOUAmount) (issue : Issue), x.Normalized → isZXC issue.currency = false →
        (ofIOUAmount x issue >>= iou) = .ok x := by
  refine ⟨fun a b ha hb hna hnb hi => ?_, fun x issue hx hc => iou_ofIOUAmount hx hc⟩
  rw [iou_of_canonical ha hna, iou_of_canonical hb hnb]
  exact ⟨plus_iou ha hb hna hnb hi, (lessThan_iou ha hb hna hnb hi).symm⟩

theorem iou_arithmetic_agrees_noIssue :
    let a : STAmount := ⟨noIssue, 1234567890123456, -10, false, false⟩
    let b : STAmount := ⟨noIssue, 9876543210987654, -12, false, true⟩
    let x : IOUAmount := ⟨-5000000000000000, 3⟩
    Canonical a ∧ Canonical b ∧ x.Normalized ∧
      ((a.plus b >>= iou).toOption = (do let x ← a.iou; let y ← b.iou; x.plus y).toOption ∧
        (do let x ← a.iou; let y ← b.iou; pure (x.lessThan y)) = lessThan a b) ∧
      (ofIOUAmount x noIssue >>= iou) = .ok x := by
  intro a b x
  have ha : Canonical a :=
    .issued isZXC_noIssue (by decide) (by decide) (by decide) (by decide) (by decide)
  have hb : Canonical b :=
    .issued isZXC_noIssue (by decide) (by decide) (by decide) (by decide) (by decide)
  have hx : x.Normalized := IOUAmount.Normalized.neg (by decide) (by decide) (by decide) (by decide)
  exact ⟨ha, hb, hx, iou_arithmetic_agrees.1 a b ha hb rfl rfl rfl,
    iou_arithmetic_agrees.2 x noIssue hx isZXC_noIssue⟩

end STAmount

end Ripple
