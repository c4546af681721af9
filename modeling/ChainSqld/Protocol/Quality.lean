import ChainSqld.Protocol.AmountMath

/-!
# Offer quality

The rate of an offer, `getRate (offerOut, offerIn)`, is the quotient `offerIn / offerOut`
(`divide`) packed into 64 bits: its offset plus `100` in the top eight bits over its mantissa.
`amountFromQuality` unpacks it. A `Quality` holds such a rate; a lower rate is better for the
taker, so `Quality`'s `<` is the reverse of the rates' order.

`ceil_in` and `ceil_out` scale an offer down to a limit on one side, recomputing the other side
from the rate, rounded up (`divRound`, `mulRound`), and clamping it to what the offer holds.
-/

set_option autoImplicit false

namespace Ripple

/-- `TAmounts<In, Out>`: what the taker pays (`in`) and gets (`out`). -/
structure TAmounts (In Out : Type) where
  in_ : In
  out_ : Out
deriving DecidableEq, Repr

/-- `Amounts`. -/
abbrev Amounts := TAmounts STAmount STAmount

namespace STAmount

/-- `areComparable`: both native or both issued, of the same currency. -/
def areComparable (v1 v2 : STAmount) : Bool :=
  v1.mIsNative == v2.mIsNative && v1.mIssue.currency == v2.mIssue.currency

/-- `operator< (STAmount, STAmount)`: by sign, then zero, then offset, then mantissa. -/
def lessThan (lhs rhs : STAmount) : Except String Bool :=
  if !areComparable lhs rhs then .error "Can't compare amounts that are't comparable!"
  else if lhs.mIsNegative != rhs.mIsNegative then .ok lhs.mIsNegative
  else if lhs.mValue = 0 then
    if rhs.mIsNegative then .ok false else .ok (rhs.mValue != 0)
  -- lhs is non-zero and both sides have the same sign
  else if rhs.mValue = 0 then .ok false
  else if lhs.mOffset > rhs.mOffset then .ok lhs.mIsNegative
  else if lhs.mOffset < rhs.mOffset then .ok !lhs.mIsNegative
  else if lhs.mValue > rhs.mValue then .ok lhs.mIsNegative
  else if lhs.mValue < rhs.mValue then .ok !lhs.mIsNegative
  else .ok false

/-- `operator> (STAmount, STAmount)`: `rhs < lhs`. -/
def greaterThan (lhs rhs : STAmount) : Except String Bool := lessThan rhs lhs

/-- `getRate (offerOut, offerIn)`: `offerIn / offerOut` packed as offset plus `100` over the
mantissa; zero for an empty `offerOut`, for a zero quotient ("too good") and for a quotient that
throws ("very bad offer"). -/
def getRate (offerOut offerIn : STAmount) : UInt64 :=
  if offerOut.mValue = 0 then 0
  else
    match divide offerIn offerOut noIssue with
    | .error _ => 0
    | .ok r => if r.mValue = 0 then 0 else (UInt64.ofInt (r.mOffset + 100) <<< (64 - 8)) ||| r.mValue

/-- `amountFromQuality`: the mantissa below the top eight bits, the offset above them less `100`. -/
def amountFromQuality (rate : UInt64) : Except String STAmount :=
  if rate = 0 then zeroOf noIssue
  else
    let mantissa := rate &&& ~~~((255 : UInt64) <<< (64 - 8))
    let exponent : Int := (rate >>> (64 - 8)).toNat - 100
    ofParts noIssue mantissa exponent false

/-! ## The packed rate -/

theorem isZXC_noIssue : isZXC noIssue.currency = false := by decide

theorem zeroOf_noIssue : zeroOf noIssue = .ok ⟨noIssue, 0, -100, false, false⟩ := by decide

/-- A non-zero quotient into `noIssue` is a positive or negative amount of `noIssue` in range,
with the sign of the quotient. -/
theorem divide_noIssue {num den r : STAmount} (h : divide num den noIssue = .ok r) (hr : r.mValue ≠ 0) :
    InRange r ∧ r = ⟨noIssue, r.mValue, r.mOffset, false, num.mIsNegative != den.mIsNegative⟩ := by
  rcases divide_eq_ok h with ⟨-, hz⟩ | ⟨v, o, hp⟩
  · rw [zeroOf_noIssue] at hz
    cases hz
    exact absurd rfl hr
  · obtain ⟨hi, hn, hzero | ⟨hrange, hneg⟩⟩ := ofParts_issued_cases isZXC_noIssue hp
    · exact absurd hzero.1 hr
    · refine ⟨hrange, ?_⟩
      obtain ⟨i, v', o', nat, neg⟩ := r
      simp only at hi hn hneg
      rw [hi, hn, hneg]

theorem toNat_rateBits {e : Int} {v : UInt64} (he : 0 ≤ e) (he' : e < 256) (hv : v.toNat < 2 ^ 56) :
    ((UInt64.ofInt e <<< (64 - 8)) ||| v).toNat = e.toNat * 2 ^ 56 + v.toNat := by
  have hofInt : (UInt64.ofInt e).toNat = e.toNat := by
    simp only [UInt64.ofInt, UInt64.toNat_ofNat']
    omega
  have hshift : (UInt64.ofInt e <<< (64 - 8)).toNat = e.toNat <<< 56 := by
    rw [UInt64.toNat_shiftLeft, hofInt, Nat.shiftLeft_eq, Nat.shiftLeft_eq]
    simp only [UInt64.reduceSub, UInt64.reduceToNat, Nat.reduceMod]
    omega
  rw [UInt64.toNat_or, hshift, Nat.shiftLeft_or_of_lt hv]

theorem toNat_rateMantissa (x : UInt64) : (x &&& ~~~((255 : UInt64) <<< (64 - 8))).toNat = x.toNat % 2 ^ 56 := by
  have hm : (~~~((255 : UInt64) <<< (64 - 8))).toNat = 2 ^ 56 - 1 := by decide
  rw [UInt64.toNat_and, hm, Nat.and_two_pow_sub_one_eq_mod]

theorem toNat_rateExponent (x : UInt64) : (x >>> (64 - 8)).toNat = x.toNat / 2 ^ 56 := by
  rw [UInt64.toNat_shiftRight, Nat.shiftRight_eq_div_pow]
  rfl

theorem toNat_lt_of_inRange {r : STAmount} (hr : InRange r) : r.mValue.toNat < 2 ^ 54 := by
  have := UInt64.le_iff_toNat_le.mp hr.value_le
  simp only [cMaxValue, UInt64.reduceToNat] at this
  omega

/-- The packed rate of an amount in range, as a number: offset plus `100` above the mantissa. -/
theorem toNat_packedRate {r : STAmount} (hr : InRange r) :
    ((UInt64.ofInt (r.mOffset + 100) <<< (64 - 8)) ||| r.mValue).toNat =
      (r.mOffset + 100).toNat * 2 ^ 56 + r.mValue.toNat := by
  have ho := hr.offset_ge
  have ho' := hr.offset_le
  simp only [cMinOffset, cMaxOffset] at ho ho'
  exact toNat_rateBits (by omega) (by omega) (by have := toNat_lt_of_inRange hr; omega)

/-- A non-zero rate is the packed quotient, which is in range. -/
theorem getRate_ne_zero {offerOut offerIn : STAmount} (h : getRate offerOut offerIn ≠ 0) :
    ∃ r, divide offerIn offerOut noIssue = .ok r ∧ InRange r ∧
      r = ⟨noIssue, r.mValue, r.mOffset, false, offerIn.mIsNegative != offerOut.mIsNegative⟩ ∧
      getRate offerOut offerIn = (UInt64.ofInt (r.mOffset + 100) <<< (64 - 8)) ||| r.mValue := by
  unfold getRate at h ⊢
  split_ifs at h ⊢ with h0
  · exact absurd rfl h
  · cases hd : divide offerIn offerOut noIssue with
    | error e =>
      rw [hd] at h
      exact absurd rfl h
    | ok r =>
      rw [hd] at h
      dsimp only at h ⊢
      split_ifs at h ⊢ with hr
      · exact absurd rfl h
      · obtain ⟨hrange, hr'⟩ := divide_noIssue hd hr
        exact ⟨r, rfl, hrange, hr', rfl⟩

/-- Amounts of `noIssue` in range, compared by `operator<`, by offset and then mantissa. -/
theorem lessThan_inRange {a b : STAmount} (ha : InRange a) (hb : InRange b) (hia : a.mIssue = b.mIssue)
    (hna : a.mIsNative = b.mIsNative) (hsa : a.mIsNegative = false) (hsb : b.mIsNegative = false) :
    lessThan a b = .ok (decide (a.mOffset < b.mOffset ∨ (a.mOffset = b.mOffset ∧ a.mValue < b.mValue))) := by
  have hva : a.mValue ≠ 0 := fun h0 => absurd (h0 ▸ ha.value_ge) (by decide)
  have hvb : b.mValue ≠ 0 := fun h0 => absurd (h0 ▸ hb.value_ge) (by decide)
  unfold lessThan
  simp only [areComparable, hia, hna, beq_self_eq_true, Bool.and_self, Bool.not_true, hsa, hsb,
    bne_self_eq_false, hva, hvb, if_false, Bool.false_eq_true, Bool.not_false]
  by_cases hgt : a.mOffset > b.mOffset
  · rw [if_pos hgt]
    simp only [Except.ok.injEq]
    have : ¬ (a.mOffset < b.mOffset ∨ (a.mOffset = b.mOffset ∧ a.mValue < b.mValue)) := by omega
    simp [this]
  rw [if_neg hgt]
  by_cases hlt : a.mOffset < b.mOffset
  · simp [hlt]
  rw [if_neg hlt]
  have heq : a.mOffset = b.mOffset := by omega
  by_cases hvgt : a.mValue > b.mValue
  · rw [if_pos hvgt]
    simp [heq, UInt64.not_lt.mpr (UInt64.le_of_lt hvgt)]
  rw [if_neg hvgt]
  by_cases hvlt : a.mValue < b.mValue
  · simp [hvlt, heq]
  · simp [hvlt, hlt]

/-- Unpacking the packed rate of a positive amount of `noIssue` in range gives it back. -/
theorem amountFromQuality_packed {r : STAmount} (hr : InRange r)
    (hi : r = ⟨noIssue, r.mValue, r.mOffset, false, false⟩) :
    amountFromQuality ((UInt64.ofInt (r.mOffset + 100) <<< (64 - 8)) ||| r.mValue) = .ok r := by
  have hx := toNat_packedRate hr
  have hv := toNat_lt_of_inRange hr
  have hv0 := UInt64.le_iff_toNat_le.mp hr.value_ge
  have ho := hr.offset_ge
  simp only [cMinValue, cMinOffset, UInt64.reduceToNat] at hv0 ho
  generalize (UInt64.ofInt (r.mOffset + 100) <<< (64 - 8)) ||| r.mValue = x at hx ⊢
  -- the two fields come back
  have hx0 : x ≠ 0 := fun h => by rw [h] at hx; simp at hx; omega
  have hmant : x &&& ~~~((255 : UInt64) <<< (64 - 8)) = r.mValue := by
    apply UInt64.toNat_inj.mp
    rw [toNat_rateMantissa, hx]
    omega
  have hexp : ((x >>> (64 - 8)).toNat : Int) - 100 = r.mOffset := by
    rw [toNat_rateExponent, hx]
    have : ((r.mOffset + 100).toNat * 2 ^ 56 + r.mValue.toNat) / 2 ^ 56 = (r.mOffset + 100).toNat := by
      omega
    rw [this]
    omega
  unfold amountFromQuality
  rw [if_neg hx0]
  dsimp only
  rw [hmant, hexp]
  rw [hi] at hr ⊢
  exact ofParts_inRange isZXC_noIssue hr

/-- An amount is not below itself. -/
theorem lessThan_self (a : STAmount) : lessThan a a = .ok false := by
  unfold lessThan
  simp only [areComparable, beq_self_eq_true, Bool.and_self, Bool.not_true, Bool.false_eq_true,
    if_false, bne_self_eq_false, lt_self_iff_false, gt_iff_lt]
  by_cases h0 : a.mValue = 0
  · simp [h0]
  · simp [h0]

end STAmount

open STAmount

/-- `Quality`: the rate of an offer, `m_value`. -/
structure Quality where
  m_value : UInt64
deriving DecidableEq, Repr

namespace Quality

/-- `Quality (Amounts const&)`: the rate of `out` to `in`. -/
def ofAmounts (amount : Amounts) : Quality := ⟨getRate amount.out_ amount.in_⟩

/-- `rate ()`: the rate as an amount. -/
def rate (q : Quality) : Except String STAmount := amountFromQuality q.m_value

/-- `operator< (Quality, Quality)`: `lhs` is the lower quality, the higher rate. -/
def lt (lhs rhs : Quality) : Bool := lhs.m_value > rhs.m_value

variable (switchover switchover2 : Bool)

/-- `ceil_in`: an offer whose `in` exceeds the limit is cut to the limit, its `out` recomputed
from the rate, rounded up, and clamped to the offer's. -/
def ceilIn (q : Quality) (amount : Amounts) (limit : STAmount) : Except String Amounts := do
  if ← greaterThan amount.in_ limit then
    let rate ← q.rate
    let out ← divRound switchover switchover2 limit rate amount.out_.mIssue true
    -- Clamp out
    if ← greaterThan out amount.out_ then return ⟨limit, amount.out_⟩
    else return ⟨limit, out⟩
  else return amount

/-- `ceil_out`: an offer whose `out` exceeds the limit is cut to the limit, its `in` recomputed
from the rate, rounded up, and clamped to the offer's. -/
def ceilOut (q : Quality) (amount : Amounts) (limit : STAmount) : Except String Amounts := do
  if ← greaterThan amount.out_ limit then
    let rate ← q.rate
    let inAmt ← mulRound switchover switchover2 limit rate amount.in_.mIssue true
    -- Clamp in
    if ← greaterThan inAmt amount.in_ then return ⟨amount.in_, limit⟩
    else return ⟨inAmt, limit⟩
  else return amount

/-- What `ceil_in` returns: the offer cut to the limit when its `in` is above it, the offer
otherwise; and an `out` not above the offer's. -/
theorem ceilIn_eq_ok {q : Quality} {amount : Amounts} {limit : STAmount} {r : Amounts}
    (h : ceilIn switchover switchover2 q amount limit = .ok r) :
    ((greaterThan amount.in_ limit = .ok true ∧ r.in_ = limit) ∨
      (greaterThan amount.in_ limit = .ok false ∧ r = amount)) ∧
    lessThan amount.out_ r.out_ = .ok false := by
  unfold ceilIn at h
  obtain ⟨cut, hcut, h⟩ := Except.bind_eq_ok h
  cases cut with
  | false =>
    cases h
    exact ⟨Or.inr ⟨hcut, rfl⟩, lessThan_self _⟩
  | true =>
    obtain ⟨rate, -, h⟩ := Except.bind_eq_ok h
    obtain ⟨out, -, h⟩ := Except.bind_eq_ok h
    obtain ⟨clamp, hclamp, h⟩ := Except.bind_eq_ok h
    cases clamp with
    | true =>
      cases h
      exact ⟨Or.inl ⟨hcut, rfl⟩, lessThan_self _⟩
    | false =>
      cases h
      exact ⟨Or.inl ⟨hcut, rfl⟩, hclamp⟩

/-- What `ceil_out` returns: the offer cut to the limit when its `out` is above it, the offer
otherwise; and an `in` not above the offer's. -/
theorem ceilOut_eq_ok {q : Quality} {amount : Amounts} {limit : STAmount} {r : Amounts}
    (h : ceilOut switchover switchover2 q amount limit = .ok r) :
    ((greaterThan amount.out_ limit = .ok true ∧ r.out_ = limit) ∨
      (greaterThan amount.out_ limit = .ok false ∧ r = amount)) ∧
    lessThan amount.in_ r.in_ = .ok false := by
  unfold ceilOut at h
  obtain ⟨cut, hcut, h⟩ := Except.bind_eq_ok h
  cases cut with
  | false =>
    cases h
    exact ⟨Or.inr ⟨hcut, rfl⟩, lessThan_self _⟩
  | true =>
    obtain ⟨rate, -, h⟩ := Except.bind_eq_ok h
    obtain ⟨inAmt, -, h⟩ := Except.bind_eq_ok h
    obtain ⟨clamp, hclamp, h⟩ := Except.bind_eq_ok h
    cases clamp with
    | true =>
      cases h
      exact ⟨Or.inl ⟨hcut, rfl⟩, lessThan_self _⟩
    | false =>
      cases h
      exact ⟨Or.inl ⟨hcut, rfl⟩, hclamp⟩

end Quality

namespace STAmount

/-- **The rate of an offer.** For offers whose two sides have the same sign, and whose rate is not
zero: the rate unpacks to the quotient `offerIn / offerOut`; and the order of two such rates, as
64-bit integers, is the order of the quotients, as numbers and by `operator<`. -/
theorem amountFromQuality_getRate :
    (∀ offerOut offerIn : STAmount, getRate offerOut offerIn ≠ 0 →
      offerIn.mIsNegative = offerOut.mIsNegative →
      amountFromQuality (getRate offerOut offerIn) = divide offerIn offerOut noIssue) ∧
    (∀ out1 in1 out2 in2 q1 q2 : STAmount, getRate out1 in1 ≠ 0 → getRate out2 in2 ≠ 0 →
      in1.mIsNegative = out1.mIsNegative → in2.mIsNegative = out2.mIsNegative →
      divide in1 out1 noIssue = .ok q1 → divide in2 out2 noIssue = .ok q2 →
      (q1.toRat < q2.toRat ↔ getRate out1 in1 < getRate out2 in2) ∧
        lessThan q1 q2 = .ok (decide (getRate out1 in1 < getRate out2 in2))) := by
  constructor
  · intro offerOut offerIn h hs
    obtain ⟨r, hd, hr, hi, hrate⟩ := getRate_ne_zero h
    rw [hs, bne_self_eq_false] at hi
    rw [hrate, hd]
    exact amountFromQuality_packed hr hi
  · intro out1 in1 out2 in2 q1 q2 h1 h2 hs1 hs2 hq1 hq2
    obtain ⟨r1, hd1, hr1, hi1, hrate1⟩ := getRate_ne_zero h1
    obtain ⟨r2, hd2, hr2, hi2, hrate2⟩ := getRate_ne_zero h2
    rw [hd1] at hq1
    rw [hd2] at hq2
    cases hq1
    cases hq2
    rw [hs1, bne_self_eq_false] at hi1
    rw [hs2, bne_self_eq_false] at hi2
    have hn1 : q1.mIsNegative = false := by rw [hi1]
    have hn2 : q2.mIsNegative = false := by rw [hi2]
    -- both orders are the order by offset, then by mantissa
    have hlex : getRate out1 in1 < getRate out2 in2 ↔
        q1.mOffset < q2.mOffset ∨ (q1.mOffset = q2.mOffset ∧ q1.mValue < q2.mValue) := by
      rw [hrate1, hrate2, UInt64.lt_iff_toNat_lt, toNat_packedRate hr1, toNat_packedRate hr2,
        UInt64.lt_iff_toNat_lt]
      have := toNat_lt_of_inRange hr1
      have := toNat_lt_of_inRange hr2
      have := hr1.offset_ge
      have := hr2.offset_ge
      simp only [cMinOffset] at *
      omega
    refine ⟨(toRat_lt_iff hr1 hr2 hn1 hn2).trans hlex.symm, ?_⟩
    rw [lessThan_inRange hr1 hr2 (by rw [hi1, hi2]) (by rw [hi1, hi2]) hn1 hn2]
    simp only [hlex]

/-- The round trip on offers of one ZXC-free unit each way. -/
theorem amountFromQuality_getRate_one :
    getRate ⟨noIssue, 1000000000000000, -15, false, false⟩ ⟨noIssue, 1000000000000000, -15, false, false⟩ ≠ 0 ∧
      amountFromQuality (getRate ⟨noIssue, 1000000000000000, -15, false, false⟩
        ⟨noIssue, 1000000000000000, -15, false, false⟩) =
        divide ⟨noIssue, 1000000000000000, -15, false, false⟩ ⟨noIssue, 1000000000000000, -15, false, false⟩
          noIssue :=
  ⟨by decide, amountFromQuality_getRate.1 _ _ (by decide) rfl⟩

/-- The rate keeps no sign: an offer of `1` against `-1` has the rate of `1`, which unpacks to `1`,
while the quotient is `-1`. -/
theorem getRate_drops_sign :
    getRate ⟨noIssue, 1000000000000000, -15, false, false⟩ ⟨noIssue, 1000000000000000, -15, false, true⟩ ≠ 0 ∧
      amountFromQuality (getRate ⟨noIssue, 1000000000000000, -15, false, false⟩
        ⟨noIssue, 1000000000000000, -15, false, true⟩) =
        .ok ⟨noIssue, 1000000000000000, -15, false, false⟩ ∧
      divide ⟨noIssue, 1000000000000000, -15, false, true⟩ ⟨noIssue, 1000000000000000, -15, false, false⟩
        noIssue = .ok ⟨noIssue, 1000000000000000, -15, false, true⟩ :=
  ⟨by decide, by decide, by decide⟩

end STAmount

end Ripple
