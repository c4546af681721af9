import ChainSqld.Protocol.Serializer
import ChainSqld.Lib.Bits

/-!
# STAmount and its wire form

`STAmount` of `ripple/protocol/impl/STAmount.cpp`: an amount is `mValue * 10 ^ mOffset` of an
`Issue`, native (drops of ZXC) or issued.

* `canonicalize` brings the mantissa of an issued amount into `[cMinValue, cMaxValue]` and its
  offset into `[cMinOffset, cMaxOffset]`, and native amounts to offset `0`;
* `add` packs the not-native bit, the sign bit and the biased offset above a 54-bit mantissa
  (with the special heads of native amounts and of issued zero), followed by currency and issuer;
* `parse` is the constructor `STAmount (SerialIter&, SField const&)`.

`Canonical` lists the three encodings `add` produces; `parse_add` reads each back, and
`add_parse` shows that the parser accepts no other encoding of a head it can read.
-/

set_option autoImplicit false

namespace Ripple

/-- `Currency` and `AccountID`, 160-bit values. -/
abbrev Currency := UInt160
abbrev AccountID := UInt160

/-- An `Issue`: a currency and its issuing account. -/
structure Issue where
  currency : Currency
  account : AccountID
deriving DecidableEq, Repr

/-- `isZXC (Currency)` and `isZXC (AccountID)`: both compare with zero. -/
def isZXC {n : Nat} (c : BaseUInt n) : Bool := c == BaseUInt.zero n

/-- `zxcIssue ()`, also what a default-constructed `Issue` holds. -/
def zxcIssue : Issue := ⟨BaseUInt.zero 20, BaseUInt.zero 20⟩

/-- The members of an `STAmount`; the field name it carries as an `STBase` is kept by its owner. -/
structure STAmount where
  mIssue : Issue
  mValue : UInt64
  mOffset : Int
  mIsNative : Bool
  mIsNegative : Bool
deriving DecidableEq, Repr

namespace STAmount

def cMinOffset : Int := -96
def cMaxOffset : Int := 80
def cMinValue : UInt64 := 1000000000000000
def cMaxValue : UInt64 := 9999999999999999
def cMaxNativeN : UInt64 := 100000000000000000
def cNotNative : UInt64 := 0x8000000000000000
def cPosNative : UInt64 := 0x4000000000000000

/-! ## canonicalize -/

/-! Each loop of `canonicalize` moves the offset one step towards a bound, so it runs at most
the distance to that bound; the first argument of each helper is that distance. -/

/-- `while (mOffset < 0) { mValue /= 10; ++mOffset; }` of a native amount. -/
def nativeRaise : Nat → UInt64 → Int → UInt64 × Int
  | 0, v, o => (v, o)
  | n + 1, v, o => if o < 0 then nativeRaise n (v / 10) (o + 1) else (v, o)

/-- `while (mOffset > 0) { mValue *= 10; --mOffset; }` of a native amount; the product wraps. -/
def nativeLower : Nat → UInt64 → Int → UInt64 × Int
  | 0, v, o => (v, o)
  | n + 1, v, o => if o > 0 then nativeLower n (v * 10) (o - 1) else (v, o)

/-- `while ((mValue < cMinValue) && (mOffset > cMinOffset)) { mValue *= 10; --mOffset; }`. -/
def growMantissa : Nat → UInt64 → Int → UInt64 × Int
  | 0, v, o => (v, o)
  | n + 1, v, o => if v < cMinValue ∧ o > cMinOffset then growMantissa n (v * 10) (o - 1) else (v, o)

/-- `while (mValue > cMaxValue) { if (mOffset >= cMaxOffset) throw; mValue /= 10; ++mOffset; }`. -/
def shrinkMantissa : Nat → UInt64 → Int → Except String (UInt64 × Int)
  | 0, v, o => if v > cMaxValue then .error "value overflow" else .ok (v, o)
  | n + 1, v, o =>
    if v > cMaxValue then
      if o ≥ cMaxOffset then .error "value overflow" else shrinkMantissa n (v / 10) (o + 1)
    else .ok (v, o)

/-- `STAmount::canonicalize`. -/
def canonicalize (a : STAmount) : Except String STAmount :=
  if isZXC a.mIssue.currency then
    -- native currency amounts should always have an offset of zero
    if a.mValue = 0 then
      .ok { a with mIsNative := true, mOffset := 0, mIsNegative := false }
    else
      let (v, o) := nativeRaise (-a.mOffset).toNat a.mValue a.mOffset
      let (v, o) := nativeLower o.toNat v o
      if v > cMaxNativeN then .error "Native currency amount out of range"
      else .ok { a with mIsNative := true, mValue := v, mOffset := o }
  else if a.mValue = 0 then
    .ok { a with mIsNative := false, mOffset := -100, mIsNegative := false }
  else do
    let (v, o) := growMantissa (a.mOffset - cMinOffset).toNat a.mValue a.mOffset
    let (v, o) ← shrinkMantissa (cMaxOffset - o).toNat v o
    if o < cMinOffset ∨ v < cMinValue then
      .ok { a with mIsNative := false, mValue := 0, mIsNegative := false, mOffset := -100 }
    else if o > cMaxOffset then .error "value overflow"
    else .ok { a with mIsNative := false, mValue := v, mOffset := o }

/-! ## The wire form -/

/-- `STAmount::add`. -/
def add (a : STAmount) : Blob :=
  if a.mIsNative then
    if !a.mIsNegative then Serializer.add64 (a.mValue ||| cPosNative)
    else Serializer.add64 a.mValue
  else
    let head :=
      if a.mValue = 0 then cNotNative
      else if a.mIsNegative then
        -- 512 = not native
        a.mValue ||| (UInt64.ofInt (a.mOffset + 512 + 97) <<< (64 - 10))
      else
        -- 256 = positive
        a.mValue ||| (UInt64.ofInt (a.mOffset + 512 + 256 + 97) <<< (64 - 10))
    Serializer.add64 head ++ Serializer.addBitString a.mIssue.currency ++
      Serializer.addBitString a.mIssue.account

/-- The native half of `STAmount (SerialIter&, SField const&)`: the head alone is the amount. -/
def parseNative (value : UInt64) : Except String STAmount :=
  -- positive
  if value &&& cPosNative ≠ 0 then
    .ok ⟨zxcIssue, value &&& ~~~cPosNative, 0, true, false⟩
  -- negative
  else if value = 0 then .error "negative zero is not canonical"
  else .ok ⟨zxcIssue, value, 0, true, true⟩

/-- The issued amount a head stands for, once currency and issuer are read: the top ten bits hold
the not-native flag, the sign and the biased offset. -/
def issuedFromHead (value : UInt64) (issue : Issue) : Except String STAmount :=
  let offset := (value >>> (64 - 10)).toNat
  let value := value &&& ~~~((1023 : UInt64) <<< (64 - 10))
  if value ≠ 0 then
    let isNegative := offset &&& 256 = 0
    -- center the range
    let offset : Int := ((offset &&& 255 : Nat) : Int) - 97
    if value < cMinValue ∨ value > cMaxValue ∨ offset < cMinOffset ∨ offset > cMaxOffset then
      .error "invalid currency value"
    -- `mIsNative` is left unset here; `canonicalize` sets it
    else canonicalize ⟨issue, value, offset, false, isNegative⟩
  else if offset ≠ 512 then .error "invalid currency value"
  else canonicalize ⟨issue, 0, 0, false, false⟩

/-- The issued half of the constructor: currency and issuer follow the head. -/
def parseIssued (value : UInt64) : Reader STAmount := do
  let currency ← SerialIter.getBitString 20
  if isZXC currency then throw "invalid native currency"
  let account ← SerialIter.getBitString 20
  if isZXC account then throw "invalid native account"
  liftM (issuedFromHead value ⟨currency, account⟩)

/-- `STAmount (SerialIter& sit, SField const& name)`. -/
def parse : Reader STAmount := do
  let value ← SerialIter.get64
  if value &&& cNotNative = 0 then liftM (parseNative value) else parseIssued value

/-! ## The head word -/

theorem toNat_cPosNative : cPosNative.toNat = 2 ^ 62 := rfl

theorem and_cNotNative_eq_zero_iff (x : UInt64) : x &&& cNotNative = 0 ↔ x.toNat < 2 ^ 63 := by
  have hx := x.toNat_lt
  rw [← UInt64.toNat_inj, UInt64.toNat_and, show cNotNative.toNat = 2 ^ 63 from rfl,
    UInt64.toNat_zero, Nat.and_two_pow_eq_zero_iff]
  omega

theorem and_cPosNative_eq_zero_iff {x : UInt64} (hx : x.toNat < 2 ^ 63) :
    x &&& cPosNative = 0 ↔ x.toNat < 2 ^ 62 := by
  rw [← UInt64.toNat_inj, UInt64.toNat_and, toNat_cPosNative, UInt64.toNat_zero,
    Nat.and_two_pow_eq_zero_iff]
  omega

theorem toNat_and_not_cPosNative {x : UInt64} (hx : x.toNat < 2 ^ 63) :
    (x &&& ~~~cPosNative).toNat = x.toNat % 2 ^ 62 := by
  have hm : (~~~cPosNative).toNat = 2 ^ 63 ||| (2 ^ 62 - 1) := by decide
  rw [UInt64.toNat_and, hm, Nat.and_or_distrib_left, Nat.and_two_pow_of_lt hx,
    Nat.and_two_pow_sub_one_eq_mod, Nat.zero_or]

theorem toNat_or_cPosNative {v : UInt64} (hv : v.toNat < 2 ^ 62) :
    (v ||| cPosNative).toNat = v.toNat + 2 ^ 62 := by
  rw [UInt64.toNat_or, toNat_cPosNative, Nat.or_two_pow_of_lt hv]

theorem toNat_offsetBits (x : UInt64) : (x >>> (64 - 10)).toNat = x.toNat / 2 ^ 54 := by
  rw [UInt64.toNat_shiftRight, Nat.shiftRight_eq_div_pow]
  rfl

theorem toNat_mantissaBits (x : UInt64) :
    (x &&& ~~~((1023 : UInt64) <<< (64 - 10))).toNat = x.toNat % 2 ^ 54 := by
  have hm : (~~~((1023 : UInt64) <<< (64 - 10))).toNat = 2 ^ 54 - 1 := by decide
  rw [UInt64.toNat_and, hm, Nat.and_two_pow_sub_one_eq_mod]

/-- The head of an issued amount: the ten high bits `e` above the mantissa. -/
theorem toNat_issuedHead {v : UInt64} {e : Int} (hv : v.toNat < 2 ^ 54) (he : 0 ≤ e) (he' : e < 1024) :
    (v ||| (UInt64.ofInt e <<< (64 - 10))).toNat = e.toNat * 2 ^ 54 + v.toNat := by
  have hofInt : (UInt64.ofInt e).toNat = e.toNat := by
    simp only [UInt64.ofInt, UInt64.toNat_ofNat']
    omega
  have hshift : (UInt64.ofInt e <<< (64 - 10)).toNat = e.toNat <<< 54 := by
    rw [UInt64.toNat_shiftLeft, hofInt, Nat.shiftLeft_eq, Nat.shiftLeft_eq]
    simp only [UInt64.reduceSub, UInt64.reduceToNat, Nat.reduceMod]
    omega
  rw [UInt64.toNat_or, hshift, Nat.or_comm, Nat.shiftLeft_or_of_lt hv]

/-! ## canonicalize on amounts already in range -/

theorem growMantissa_of_le {v : UInt64} (h : cMinValue ≤ v) (n : Nat) (o : Int) :
    growMantissa n v o = (v, o) := by
  cases n with
  | zero => rfl
  | succ n => simp [growMantissa, UInt64.not_lt.mpr h]

theorem shrinkMantissa_of_le {v : UInt64} (h : v ≤ cMaxValue) (n : Nat) (o : Int) :
    shrinkMantissa n v o = .ok (v, o) := by
  cases n with
  | zero => simp [shrinkMantissa, UInt64.not_lt.mpr h]
  | succ n => simp [shrinkMantissa, UInt64.not_lt.mpr h]

/-- `canonicalize` leaves an issued amount in range as it is. -/
theorem canonicalize_issued {a : STAmount} (hc : isZXC a.mIssue.currency = false)
    (hv : cMinValue ≤ a.mValue) (hv' : a.mValue ≤ cMaxValue) (ho : cMinOffset ≤ a.mOffset)
    (ho' : a.mOffset ≤ cMaxOffset) : canonicalize a = .ok { a with mIsNative := false } := by
  have hnz : a.mValue ≠ 0 := by
    intro h0
    rw [h0] at hv
    exact absurd hv (by decide)
  simp [canonicalize, hc, hnz, growMantissa_of_le hv, shrinkMantissa_of_le hv',
    not_lt.mpr ho, not_lt.mpr ho', UInt64.not_lt.mpr hv]

/-- `canonicalize` gives an issued zero the offset `-100`. -/
theorem canonicalize_issued_zero {a : STAmount} (hc : isZXC a.mIssue.currency = false)
    (h0 : a.mValue = 0) :
    canonicalize a = .ok { a with mIsNative := false, mOffset := -100, mIsNegative := false } := by
  simp [canonicalize, hc, h0]

/-! ## Canonical amounts -/

/-- The canonical amounts: a native amount of the ZXC issue at offset zero, not above
`cMaxNativeN` and not a negative zero; an issued zero at offset `-100`; an issued amount with its
mantissa and offset in range. Issued amounts name a currency and an issuer other than ZXC's. -/
inductive Canonical : STAmount → Prop
  | native {v : UInt64} {neg : Bool} (hv : v ≤ cMaxNativeN) (hz : neg = true → v ≠ 0) :
      Canonical ⟨zxcIssue, v, 0, true, neg⟩
  | zero {i : Issue} (hc : isZXC i.currency = false) (ha : isZXC i.account = false) :
      Canonical ⟨i, 0, -100, false, false⟩
  | issued {i : Issue} {v : UInt64} {o : Int} {neg : Bool} (hc : isZXC i.currency = false)
      (ha : isZXC i.account = false) (hv : cMinValue ≤ v) (hv' : v ≤ cMaxValue)
      (ho : cMinOffset ≤ o) (ho' : o ≤ cMaxOffset) :
      Canonical ⟨i, v, o, false, neg⟩

theorem toNat_le_cMaxNativeN {v : UInt64} (hv : v ≤ cMaxNativeN) : v.toNat < 2 ^ 62 := by
  have : v.toNat ≤ 100000000000000000 := UInt64.le_iff_toNat_le.mp hv
  omega

/-- A native amount reads back from its head. -/
theorem parse_add_native {v : UInt64} {neg : Bool} (hv : v ≤ cMaxNativeN) (hz : neg = true → v ≠ 0)
    (rest : SerialIter) :
    parse.run (add ⟨zxcIssue, v, 0, true, neg⟩ ++ rest) = .ok (⟨zxcIssue, v, 0, true, neg⟩, rest) := by
  have hv62 := toNat_le_cMaxNativeN hv
  cases neg with
  | false =>
    have hhead := toNat_or_cPosNative hv62
    have h63 : (v ||| cPosNative).toNat < 2 ^ 63 := by omega
    have hpos : (v ||| cPosNative) &&& cPosNative ≠ 0 := by
      rw [ne_eq, and_cPosNative_eq_zero_iff h63]
      omega
    have hval : (v ||| cPosNative) &&& ~~~cPosNative = v := by
      apply UInt64.toNat_inj.mp
      rw [toNat_and_not_cPosNative h63, hhead]
      omega
    simp only [add, Bool.not_false, if_true]
    rw [parse, StateT.run_bind_ok (get64_add64 _ rest), if_pos ((and_cNotNative_eq_zero_iff _).mpr h63)]
    simp [parseNative, hpos, hval]
  | true =>
    have hpos : v &&& cPosNative = 0 := (and_cPosNative_eq_zero_iff (by omega)).mpr hv62
    simp only [add, Bool.not_true, Bool.false_eq_true, if_true, if_false]
    rw [parse, StateT.run_bind_ok (get64_add64 _ rest),
      if_pos ((and_cNotNative_eq_zero_iff _).mpr (by omega))]
    simp [parseNative, hpos, hz rfl]

theorem toNat_le_cMaxValue {v : UInt64} (hv : v ≤ cMaxValue) : v.toNat < 2 ^ 54 := by
  have : v.toNat ≤ 9999999999999999 := UInt64.le_iff_toNat_le.mp hv
  omega

/-- Reading the currency and issuer of an issued amount. -/
theorem parseIssued_run (value : UInt64) {i : Issue} (hc : isZXC i.currency = false)
    (ha : isZXC i.account = false) (rest : SerialIter) :
    (parseIssued value).run
      (Serializer.addBitString i.currency ++ Serializer.addBitString i.account ++ rest) =
      (issuedFromHead value i).map (·, rest) := by
  rw [parseIssued, List.append_assoc, StateT.run_bind_ok (getBitString_addBitString _ _)]
  simp only [hc, Bool.false_eq_true, if_false]
  rw [StateT.run_bind_ok (getBitString_addBitString _ _)]
  simp only [ha, Bool.false_eq_true, if_false]
  cases issuedFromHead value i <;> rfl

/-- The fields `issuedFromHead` reads off a head, as digits of its value. -/
theorem issuedFromHead_eq (value : UInt64) (i : Issue) :
    issuedFromHead value i =
      if value &&& ~~~((1023 : UInt64) <<< (64 - 10)) ≠ 0 then
        if value &&& ~~~((1023 : UInt64) <<< (64 - 10)) < cMinValue ∨
            value &&& ~~~((1023 : UInt64) <<< (64 - 10)) > cMaxValue ∨
            (((value.toNat / 2 ^ 54 % 256 : Nat) : Int) - 97) < cMinOffset ∨
            (((value.toNat / 2 ^ 54 % 256 : Nat) : Int) - 97) > cMaxOffset then
          .error "invalid currency value"
        else canonicalize ⟨i, value &&& ~~~((1023 : UInt64) <<< (64 - 10)),
          ((value.toNat / 2 ^ 54 % 256 : Nat) : Int) - 97, false, value.toNat / 2 ^ 54 / 256 % 2 = 0⟩
      else if value.toNat / 2 ^ 54 ≠ 512 then .error "invalid currency value"
      else canonicalize ⟨i, 0, 0, false, false⟩ := by
  have hsign : (value.toNat / 2 ^ 54 &&& 256 = 0) ↔ value.toNat / 2 ^ 54 / 256 % 2 = 0 :=
    Nat.and_two_pow_eq_zero_iff _ 8
  simp only [issuedFromHead, toNat_offsetBits, and_255, hsign]

/-- An issued amount in range reads back from its head. -/
theorem issuedFromHead_add {i : Issue} {v : UInt64} {o : Int} {neg : Bool}
    (hc : isZXC i.currency = false) (hv : cMinValue ≤ v) (hv' : v ≤ cMaxValue) (ho : cMinOffset ≤ o)
    (ho' : o ≤ cMaxOffset) :
    issuedFromHead (v ||| (UInt64.ofInt (o + 512 + (if neg then 0 else 256) + 97) <<< (64 - 10))) i =
      .ok ⟨i, v, o, false, neg⟩ := by
  have hv54 := toNat_le_cMaxValue hv'
  have hmin : cMinOffset = -96 := rfl
  have hmax : cMaxOffset = 80 := rfl
  have hhead := toNat_issuedHead (e := o + 512 + (if neg then 0 else 256) + 97) hv54
    (by split <;> omega) (by split <;> omega)
  have hval : (v ||| (UInt64.ofInt (o + 512 + (if neg then 0 else 256) + 97) <<< (64 - 10))) &&&
      ~~~((1023 : UInt64) <<< (64 - 10)) = v := by
    apply UInt64.toNat_inj.mp
    rw [toNat_mantissaBits, hhead]
    omega
  have hnz : v ≠ 0 := by
    rintro rfl
    exact absurd hv (by decide)
  have hE : (o + 512 + (if neg then 0 else 256) + 97).toNat * 2 ^ 54 + v.toNat =
      ((o + 97).toNat + 512 + (if neg then 0 else 256)) * 2 ^ 54 + v.toNat := by
    split <;> omega
  rw [issuedFromHead_eq, hval, hhead, hE]
  have hdiv : (((o + 97).toNat + 512 + (if neg then 0 else 256)) * 2 ^ 54 + v.toNat) / 2 ^ 54 =
      (o + 97).toNat + 512 + (if neg then 0 else 256) := by omega
  have hoff : ((((o + 97).toNat + 512 + (if neg then 0 else 256)) % 256 : Nat) : Int) - 97 = o := by
    split <;> omega
  have hsign : (((o + 97).toNat + 512 + (if neg then 0 else 256)) / 256 % 2 = 0) ↔ neg = true := by
    cases neg <;> simp <;> omega
  simp only [hdiv, hoff, ne_eq, hnz, not_false_eq_true, if_true, UInt64.not_lt.mpr hv,
    UInt64.not_lt.mpr hv', not_lt.mpr ho, not_lt.mpr ho', or_self, if_false, hsign]
  rw [canonicalize_issued hc hv hv' ho ho']
  cases neg <;> rfl

/-- The head `add` writes for an issued amount other than zero. -/
theorem add_issued {i : Issue} {v : UInt64} {o : Int} {neg : Bool} (hnz : v ≠ 0) :
    add ⟨i, v, o, false, neg⟩ =
      Serializer.add64 (v ||| (UInt64.ofInt (o + 512 + (if neg then 0 else 256) + 97) <<< (64 - 10))) ++
        Serializer.addBitString i.currency ++ Serializer.addBitString i.account := by
  cases neg <;> simp [add, hnz, Int.add_assoc]

theorem parse_add_issued {i : Issue} {v : UInt64} {o : Int} {neg : Bool} (hc : isZXC i.currency = false)
    (ha : isZXC i.account = false) (hv : cMinValue ≤ v) (hv' : v ≤ cMaxValue) (ho : cMinOffset ≤ o)
    (ho' : o ≤ cMaxOffset) (rest : SerialIter) :
    parse.run (add ⟨i, v, o, false, neg⟩ ++ rest) = .ok (⟨i, v, o, false, neg⟩, rest) := by
  have hnz : v ≠ 0 := by
    rintro rfl
    exact absurd hv (by decide)
  have hmin : cMinOffset = -96 := rfl
  have hmax : cMaxOffset = 80 := rfl
  have hhead := toNat_issuedHead (e := o + 512 + (if neg then 0 else 256) + 97)
    (toNat_le_cMaxValue hv') (by split <;> omega) (by split <;> omega)
  have hnat : ¬ ((v ||| (UInt64.ofInt (o + 512 + (if neg then 0 else 256) + 97) <<< (64 - 10))) &&&
      cNotNative = 0) := by
    rw [and_cNotNative_eq_zero_iff, hhead]
    split <;> omega
  rw [add_issued hnz, List.append_assoc, List.append_assoc, parse,
    StateT.run_bind_ok (get64_add64 _ _), if_neg hnat, ← List.append_assoc, parseIssued_run _ hc ha,
    issuedFromHead_add hc hv hv' ho ho']
  rfl

theorem parse_add_zero {i : Issue} (hc : isZXC i.currency = false) (ha : isZXC i.account = false)
    (rest : SerialIter) :
    parse.run (add ⟨i, 0, -100, false, false⟩ ++ rest) = .ok (⟨i, 0, -100, false, false⟩, rest) := by
  have hnat : ¬ (cNotNative &&& cNotNative = 0) := by decide
  have hzero : issuedFromHead cNotNative i = .ok ⟨i, 0, -100, false, false⟩ := by
    have h1 : cNotNative &&& ~~~((1023 : UInt64) <<< (64 - 10)) = 0 := by decide
    have h2 : cNotNative.toNat / 2 ^ 54 = 512 := by decide
    simp only [issuedFromHead_eq, h1, h2, ne_eq, not_true, if_false]
    exact canonicalize_issued_zero hc rfl
  simp only [add, Bool.false_eq_true, if_false, if_true]
  rw [List.append_assoc, List.append_assoc, parse, StateT.run_bind_ok (get64_add64 _ _), if_neg hnat,
    ← List.append_assoc, parseIssued_run _ hc ha, hzero]
  rfl

/-- Every canonical amount reads back from the bytes `add` writes. -/
theorem parse_add {a : STAmount} (h : Canonical a) (rest : SerialIter) :
    parse.run (add a ++ rest) = .ok (a, rest) := by
  cases h with
  | native hv hz => exact parse_add_native hv hz rest
  | zero hc ha => exact parse_add_zero hc ha rest
  | issued hc ha hv hv' ho ho' => exact parse_add_issued hc ha hv hv' ho ho' rest

/-! ## No other encodings -/

/-- A native head the parser accepts is what `add` writes for the amount it returns. -/
theorem add_of_parseNative {value : UInt64} {a : STAmount} (hnat : value.toNat < 2 ^ 63)
    (h : parseNative value = .ok a) : add a = Serializer.add64 value := by
  unfold parseNative at h
  split_ifs at h with hpos hzero <;> cases h
  · have h62 : 2 ^ 62 ≤ value.toNat := by
      rw [ne_eq, and_cPosNative_eq_zero_iff hnat] at hpos
      omega
    have hlow : ((value &&& ~~~cPosNative) ||| cPosNative) = value := by
      apply UInt64.toNat_inj.mp
      have hm := toNat_and_not_cPosNative hnat
      rw [toNat_or_cPosNative (by omega), hm]
      omega
    simp [add, hlow]
  · simp [add]

/-- An issued head the parser accepts is what `add` writes for the amount it returns. -/
theorem add_of_issuedFromHead {value : UInt64} {i : Issue} {a : STAmount} (hnat : 2 ^ 63 ≤ value.toNat)
    (hc : isZXC i.currency = false) (h : issuedFromHead value i = .ok a) :
    add a = Serializer.add64 value ++ Serializer.addBitString i.currency ++
      Serializer.addBitString i.account := by
  have hx := value.toNat_lt
  rw [issuedFromHead_eq] at h
  split_ifs at h with hnz hrange hE
  · rw [not_or, not_or, not_or, UInt64.not_lt, UInt64.not_lt, not_lt, not_lt] at hrange
    obtain ⟨hv, hv', ho, ho'⟩ := hrange
    rw [canonicalize_issued hc hv hv' ho ho', Except.ok.injEq] at h
    subst h
    dsimp only
    rw [add_issued hnz]
    congr 3
    have hmin : cMinOffset = -96 := rfl
    have hmax : cMaxOffset = 80 := rfl
    have hm := toNat_mantissaBits value
    apply UInt64.toNat_inj.mp
    rw [toNat_issuedHead (toNat_le_cMaxValue hv') (by split <;> omega) (by split <;> omega), hm]
    split <;> rename_i hs <;> simp only [decide_eq_true_eq] at hs <;> omega
  · simp only [ne_eq, Decidable.not_not] at hnz hE
    rw [canonicalize_issued_zero hc rfl, Except.ok.injEq] at h
    subst h
    have hhead : value = cNotNative := by
      apply UInt64.toNat_inj.mp
      have hm := toNat_mantissaBits value
      rw [hnz, UInt64.toNat_zero] at hm
      rw [show cNotNative.toNat = 512 * 2 ^ 54 from rfl]
      omega
    simp [add, hhead]

theorem parseIssued_eq_ok {value : UInt64} {bs rest : SerialIter} {a : STAmount}
    (h : (parseIssued value).run bs = .ok (a, rest)) :
    ∃ i : Issue, isZXC i.currency = false ∧
      bs = Serializer.addBitString i.currency ++ Serializer.addBitString i.account ++ rest ∧
      issuedFromHead value i = .ok a := by
  rw [parseIssued] at h
  obtain ⟨c, r1, hc, h⟩ := StateT.run_bind_eq_ok h
  split at h
  · cases h
  · rename_i hzc
    obtain ⟨acc, r2, hacc, h⟩ := StateT.run_bind_eq_ok h
    split at h
    · cases h
    · obtain ⟨hi, rfl⟩ := StateT.run_lift_eq_ok h
      refine ⟨⟨c, acc⟩, by simpa using hzc, ?_, hi⟩
      rw [getBitString_eq_ok hc, getBitString_eq_ok hacc, List.append_assoc]

/-- Whatever the parser accepts, `add` writes back byte for byte. -/
theorem add_parse {bs rest : SerialIter} {a : STAmount} (h : parse.run bs = .ok (a, rest)) :
    add a ++ rest = bs := by
  rw [parse] at h
  obtain ⟨value, r1, hv, h⟩ := StateT.run_bind_eq_ok h
  rw [get64_eq_ok hv]
  split at h
  · rename_i hnat
    obtain ⟨hn, rfl⟩ := StateT.run_lift_eq_ok h
    rw [add_of_parseNative ((and_cNotNative_eq_zero_iff _).mp hnat) hn]
  · rename_i hnat
    obtain ⟨i, hc, rfl, hi⟩ := parseIssued_eq_ok h
    have h63 : 2 ^ 63 ≤ value.toNat := by
      rw [and_cNotNative_eq_zero_iff] at hnat
      omega
    rw [add_of_issuedFromHead h63 hc hi]
    simp only [List.append_assoc]

theorem add_length (a : STAmount) : (add a).length = if a.mIsNative then 8 else 48 := by
  unfold add
  split_ifs <;> simp [Serializer.add64, Serializer.addBitString, BaseUInt.size_eq]

/-- **The wire form of an amount.** A canonical amount reads back from the bytes `add` writes,
whatever follows them; and whatever the parser accepts, eight bytes for a native amount and
forty-eight for an issued one, is exactly what `add` writes for the amount it returns. -/
theorem wire_round_trip :
    (∀ a : STAmount, a.Canonical → ∀ rest, parse.run (add a ++ rest) = .ok (a, rest)) ∧
    (∀ bs rest : SerialIter, ∀ a : STAmount, parse.run bs = .ok (a, rest) →
      add a ++ rest = bs ∧ ((add a).length = 8 ∨ (add a).length = 48)) := by
  refine ⟨fun a h rest => parse_add h rest, fun bs rest a h => ⟨add_parse h, ?_⟩⟩
  rw [add_length]
  split <;> simp

/-- One ZXC, a million drops, on the wire. -/
theorem wire_round_trip_oneZXC :
    Canonical ⟨zxcIssue, 1000000, 0, true, false⟩ ∧
      parse.run (add ⟨zxcIssue, 1000000, 0, true, false⟩ ++ []) =
        .ok (⟨zxcIssue, 1000000, 0, true, false⟩, []) ∧
      ((add ⟨zxcIssue, 1000000, 0, true, false⟩).length = 8 ∨
        (add ⟨zxcIssue, 1000000, 0, true, false⟩).length = 48) := by
  have hc : Canonical ⟨zxcIssue, 1000000, 0, true, false⟩ := .native (by decide) (by simp)
  have hp := wire_round_trip.1 _ hc []
  exact ⟨hc, hp, (wire_round_trip.2 _ _ _ hp).2⟩

end STAmount

end Ripple
