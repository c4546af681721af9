import Mathlib
import ChainSqld.Lib.StateExcept

/-!
# Serializer and SerialIter

The byte-level codec of `ripple/protocol/impl/Serializer.cpp`. A `Serializer` only ever appends,
so each `add*` is modelled by the bytes it appends; a `SerialIter` is the list of bytes not yet
consumed, and its readers live in `Reader`, a state monad over that list that fails with the
message the code throws.

* fixed-width words: `add16`/`add32`/`add64` against `get16`/`get32`/`get64`, and the raw
  `base_uint` copies `add160`/`add256` against `get160`/`get256`;
* the variable-length prefix `addEncoded` against `getVLDataLength`;
* field identifiers `addFieldID` against `getFieldID`.

Each writer has a round-trip lemma (`get64_add64`, `getFieldID_addFieldID`, ...), the only facts the
codecs above this file use.
-/

set_option autoImplicit false

namespace Ripple

/-- `Blob`, a `std::vector<unsigned char>`. -/
abbrev Blob := List UInt8

/-- A `base_uint<8 * bytes>`: its bytes, most significant first, and always `bytes` of them. -/
structure BaseUInt (bytes : Nat) where
  data : List UInt8
  size_eq : data.length = bytes
deriving DecidableEq, Repr

/-- `uint128`, `uint160`, `uint256`. -/
abbrev UInt128 := BaseUInt 16
abbrev UInt160 := BaseUInt 20
abbrev UInt256 := BaseUInt 32

namespace BaseUInt

variable {n : Nat}

/-- The zero value, `beast::zero`. -/
def zero (n : Nat) : BaseUInt n := ⟨List.replicate n 0, List.length_replicate⟩

/-- `isZero ()`. -/
def isZero (x : BaseUInt n) : Bool := x.data.all (· == 0)

theorem isZero_iff (x : BaseUInt n) : x.isZero = true ↔ x = zero n := by
  obtain ⟨d, hd⟩ := x
  simp only [isZero, List.all_eq_true, beq_iff_eq, zero, mk.injEq]
  constructor
  · intro h
    exact List.eq_replicate_iff.mpr ⟨hd, h⟩
  · rintro rfl b hb
    exact (List.mem_replicate.mp hb).2

end BaseUInt

/-! ## Writers -/

namespace Serializer

/-- `add8`. -/
def add8 (b : UInt8) : Blob := [b]

/-- `add16`: most significant byte first. -/
def add16 (i : UInt16) : Blob := [(i >>> 8).toUInt8, i.toUInt8]

/-- `add32`. -/
def add32 (i : UInt32) : Blob :=
  [(i >>> 24).toUInt8, (i >>> 16).toUInt8, (i >>> 8).toUInt8, i.toUInt8]

/-- `add64`. -/
def add64 (i : UInt64) : Blob :=
  [(i >>> 56).toUInt8, (i >>> 48).toUInt8, (i >>> 40).toUInt8, (i >>> 32).toUInt8,
   (i >>> 24).toUInt8, (i >>> 16).toUInt8, (i >>> 8).toUInt8, i.toUInt8]

/-- `add128`, `add160`, `add256` and `addBitString`: the bytes of a `base_uint` as stored. -/
def addBitString {n : Nat} (x : BaseUInt n) : Blob := x.data

@[simp] theorem length_addBitString {n : Nat} (x : BaseUInt n) : (addBitString x).length = n := x.size_eq

/-- `addRaw`. -/
def addRaw (b : Blob) : Blob := b

/-- `addEncoded`: the one to three bytes of a variable-length prefix. -/
def addEncoded (length : Nat) : Except String Blob :=
  if length ≤ 192 then
    .ok [length.toUInt8]
  else if length ≤ 12480 then
    let l := length - 193
    .ok [(193 + (l >>> 8)).toUInt8, (l &&& 0xff).toUInt8]
  else if length ≤ 918744 then
    let l := length - 12481
    .ok [(241 + (l >>> 16)).toUInt8, ((l >>> 8) &&& 0xff).toUInt8, (l &&& 0xff).toUInt8]
  else
    .error "lenlen"

/-- `addVL`: the encoded length, then the bytes. -/
def addVL (b : Blob) : Except String Blob := do
  let pre ← addEncoded b.length
  return pre ++ b

/-- `encodeLengthLength`. -/
def encodeLengthLength (length : Nat) : Except String Nat :=
  if length ≤ 192 then .ok 1
  else if length ≤ 12480 then .ok 2
  else if length ≤ 918744 then .ok 3
  else .error "len>918744"

/-- `decodeLengthLength`. -/
def decodeLengthLength (b1 : Nat) : Except String Nat :=
  if b1 ≤ 192 then .ok 1
  else if b1 ≤ 240 then .ok 2
  else if b1 ≤ 254 then .ok 3
  else .error "b1>254"

/-- `decodeVLLength (b1)`. -/
def decodeVLLength1 (b1 : Nat) : Except String Nat :=
  if b1 > 254 then .error "b1>254" else .ok b1

/-- `decodeVLLength (b1, b2)`. -/
def decodeVLLength2 (b1 b2 : Nat) : Except String Nat :=
  if b1 < 193 then .error "b1<193"
  else if b1 > 240 then .error "b1>240"
  else .ok (193 + (b1 - 193) * 256 + b2)

/-- `decodeVLLength (b1, b2, b3)`. -/
def decodeVLLength3 (b1 b2 b3 : Nat) : Except String Nat :=
  if b1 < 241 then .error "b1<241"
  else if b1 > 254 then .error "b1>254"
  else .ok (12481 + (b1 - 241) * 65536 + b2 * 256 + b3)

/-- `Serializer::getVLLength (length, offset)`, with `none` for `false`. The first byte's size is
decoded outside the `try`, so a first byte past 254 throws. -/
def getVLLength (data : Blob) (offset : Nat) : Except String (Option Nat) :=
  match data[offset]? with
  | none => .ok none
  | some b1 => do
    let lenLen ← decodeLengthLength b1.toNat
    if lenLen = 1 then
      return (decodeVLLength1 b1.toNat).toOption
    else if lenLen = 2 then
      match data[offset + 1]? with
      | none => return none
      | some b2 => return (decodeVLLength2 b1.toNat b2.toNat).toOption
    else if lenLen = 3 then
      match data[offset + 1]?, data[offset + 2]? with
      | some b2, some b3 => return (decodeVLLength3 b1.toNat b2.toNat b3.toNat).toOption
      | _, _ => return none
    else return none

/-- `addFieldID (type, name)`; the code asserts `0 < type < 256` and `0 < name < 256`. -/
def addFieldID (type name : Nat) : Blob :=
  if type < 16 then
    if name < 16 then [((type <<< 4) ||| name).toUInt8]
    else [(type <<< 4).toUInt8, name.toUInt8]
  else if name < 16 then [name.toUInt8, type.toUInt8]
  else [0, type.toUInt8, name.toUInt8]

end Serializer

/-! ## Readers -/

/-- A `SerialIter`: the bytes not yet read. -/
abbrev SerialIter := List UInt8

/-- Computations that read from a `SerialIter` and may throw. -/
abbrev Reader := StateT SerialIter (Except String)

namespace SerialIter

/-- `empty ()`. -/
def empty (sit : SerialIter) : Bool := sit.isEmpty

/-- Take `size` bytes or throw `msg`, the shared shape of the getters of raw bytes. -/
def takeBytes (size : Nat) (msg : String) : Reader Blob := fun sit =>
  if size ≤ List.length sit then .ok (List.take size sit, List.drop size sit) else .error msg

/-- `get8`. -/
def get8 : Reader UInt8 := fun sit =>
  match sit with
  | [] => .error "invalid SerialIter get8"
  | b :: rest => .ok (b, rest)

/-- `get16`. -/
def get16 : Reader UInt16 := fun sit =>
  match sit with
  | t0 :: t1 :: rest => .ok ((t0.toUInt16 <<< 8) + t1.toUInt16, rest)
  | _ => .error "invalid SerialIter get16"

/-- `get32`. -/
def get32 : Reader UInt32 := fun sit =>
  match sit with
  | t0 :: t1 :: t2 :: t3 :: rest =>
    .ok ((t0.toUInt32 <<< 24) + (t1.toUInt32 <<< 16) + (t2.toUInt32 <<< 8) + t3.toUInt32, rest)
  | _ => .error "invalid SerialIter get32"

/-- `get64`. -/
def get64 : Reader UInt64 := fun sit =>
  match sit with
  | t0 :: t1 :: t2 :: t3 :: t4 :: t5 :: t6 :: t7 :: rest =>
    .ok ((t0.toUInt64 <<< 56) + (t1.toUInt64 <<< 48) + (t2.toUInt64 <<< 40) +
      (t3.toUInt64 <<< 32) + (t4.toUInt64 <<< 24) + (t5.toUInt64 <<< 16) +
      (t6.toUInt64 <<< 8) + t7.toUInt64, rest)
  | _ => .error "invalid SerialIter get64"

/-- `getBitString<Bits>`: `get128`, `get160`, `get256` copy that many bytes. -/
def getBitString (n : Nat) : Reader (BaseUInt n) := fun sit =>
  if h : n ≤ List.length sit then
    .ok (⟨List.take n sit, by simp [h]⟩, List.drop n sit)
  else .error "invalid SerialIter getBitString"

/-- `getRaw (size)`. -/
def getRaw (size : Nat) : Reader Blob := takeBytes size "invalid SerialIter getRaw"

/-- `getVLDataLength`: read the one to three bytes of a length prefix. -/
def getVLDataLength : Reader Nat := do
  let b1 := (← get8).toNat
  let lenLen ← liftM (Serializer.decodeLengthLength b1)
  if lenLen = 1 then
    liftM (Serializer.decodeVLLength1 b1)
  else if lenLen = 2 then
    let b2 := (← get8).toNat
    liftM (Serializer.decodeVLLength2 b1 b2)
  else
    let b2 := (← get8).toNat
    let b3 := (← get8).toNat
    liftM (Serializer.decodeVLLength3 b1 b2 b3)

/-- `getVL`. -/
def getVL : Reader Blob := do getRaw (← getVLDataLength)

/-- The byte after a zero nibble of a field identifier: an uncommon type or name, at least 16. -/
def getUncommon (what : String) : Reader Nat := do
  let t := (← get8).toNat
  if t = 0 ∨ t < 16 then
    throw ("gFID: uncommon " ++ what ++ " out of range " ++ toString t)
  return t

/-- `getFieldID`: the type and name of the next field. -/
def getFieldID : Reader (Nat × Nat) := do
  let t0 := (← get8).toNat
  let type ← if t0 >>> 4 = 0 then getUncommon "type" else pure (t0 >>> 4)
  let name ← if t0 &&& 15 = 0 then getUncommon "name" else pure (t0 &&& 15)
  return (type, name)

end SerialIter

/-! ## Round trips -/


open Serializer SerialIter

@[simp] theorem get8_cons (b : UInt8) (rest : SerialIter) : get8.run (b :: rest) = .ok (b, rest) := rfl

theorem get16_add16 (i : UInt16) (rest : SerialIter) : get16.run (add16 i ++ rest) = .ok (i, rest) := by
  show Except.ok _ = _
  congr 2
  apply UInt16.toNat_inj.mp
  have := i.toNat_lt
  simp only [UInt16.toNat_add, UInt16.toNat_shiftLeft, UInt8.toNat_toUInt16, UInt16.toNat_toUInt8,
    UInt16.toNat_shiftRight, Nat.shiftLeft_eq, Nat.shiftRight_eq_div_pow, UInt16.reduceToNat]
  norm_num
  omega

theorem get32_add32 (i : UInt32) (rest : SerialIter) : get32.run (add32 i ++ rest) = .ok (i, rest) := by
  show Except.ok _ = _
  congr 2
  apply UInt32.toNat_inj.mp
  have := i.toNat_lt
  simp only [UInt32.toNat_add, UInt32.toNat_shiftLeft, UInt8.toNat_toUInt32, UInt32.toNat_toUInt8,
    UInt32.toNat_shiftRight, Nat.shiftLeft_eq, Nat.shiftRight_eq_div_pow, UInt32.reduceToNat]
  norm_num
  omega

theorem get64_add64 (i : UInt64) (rest : SerialIter) : get64.run (add64 i ++ rest) = .ok (i, rest) := by
  show Except.ok _ = _
  congr 2
  apply UInt64.toNat_inj.mp
  have := i.toNat_lt
  simp only [UInt64.toNat_add, UInt64.toNat_shiftLeft, UInt8.toNat_toUInt64, UInt64.toNat_toUInt8,
    UInt64.toNat_shiftRight, Nat.shiftLeft_eq, Nat.shiftRight_eq_div_pow, UInt64.reduceToNat]
  norm_num
  omega

/-- What `get32` reads is what `add32` writes back. -/
theorem get32_eq_ok {bs rest : SerialIter} {i : UInt32} (h : get32.run bs = .ok (i, rest)) :
    bs = add32 i ++ rest := by
  match bs, h with
  | t0 :: t1 :: t2 :: t3 :: r, h =>
    simp only [StateT.run, get32, Except.ok.injEq, Prod.mk.injEq] at h
    obtain ⟨rfl, rfl⟩ := h
    have h0 := t0.toNat_lt; have h1 := t1.toNat_lt; have h2 := t2.toNat_lt; have h3 := t3.toNat_lt
    simp only [add32, List.cons_append, List.nil_append, List.cons.injEq, and_true]
    refine ⟨?_, ?_, ?_, ?_⟩ <;> apply UInt8.toNat_inj.mp <;>
    simp only [UInt32.toNat_add, UInt32.toNat_shiftLeft, UInt8.toNat_toUInt32, UInt32.toNat_toUInt8,
      UInt32.toNat_shiftRight, Nat.shiftLeft_eq, Nat.shiftRight_eq_div_pow, UInt32.reduceToNat] <;>
    norm_num <;> omega

/-- What `get64` reads is what `add64` writes back. -/
theorem get64_eq_ok {bs rest : SerialIter} {i : UInt64} (h : get64.run bs = .ok (i, rest)) :
    bs = add64 i ++ rest := by
  match bs, h with
  | t0 :: t1 :: t2 :: t3 :: t4 :: t5 :: t6 :: t7 :: r, h =>
    simp only [StateT.run, get64, Except.ok.injEq, Prod.mk.injEq] at h
    obtain ⟨rfl, rfl⟩ := h
    have h0 := t0.toNat_lt; have h1 := t1.toNat_lt; have h2 := t2.toNat_lt; have h3 := t3.toNat_lt
    have h4 := t4.toNat_lt; have h5 := t5.toNat_lt; have h6 := t6.toNat_lt; have h7 := t7.toNat_lt
    simp only [add64, List.cons_append, List.nil_append, List.cons.injEq, and_true]
    refine ⟨?_, ?_, ?_, ?_, ?_, ?_, ?_, ?_⟩ <;> apply UInt8.toNat_inj.mp <;>
    simp only [UInt64.toNat_add, UInt64.toNat_shiftLeft, UInt8.toNat_toUInt64, UInt64.toNat_toUInt8,
      UInt64.toNat_shiftRight, Nat.shiftLeft_eq, Nat.shiftRight_eq_div_pow, UInt64.reduceToNat] <;>
    norm_num <;> omega

theorem getBitString_eq_ok {n : Nat} {bs rest : SerialIter} {x : BaseUInt n}
    (h : (getBitString n).run bs = .ok (x, rest)) : bs = addBitString x ++ rest := by
  simp only [StateT.run, getBitString] at h
  split at h
  · simp only [Except.ok.injEq, Prod.mk.injEq] at h
    obtain ⟨rfl, rfl⟩ := h
    simp [addBitString]
  · cases h

theorem getBitString_addBitString {n : Nat} (x : BaseUInt n) (rest : SerialIter) :
    (getBitString n).run (addBitString x ++ rest) = .ok (x, rest) := by
  obtain ⟨d, rfl⟩ := x
  simp [getBitString, addBitString, StateT.run]

theorem getRaw_append (b : Blob) (rest : SerialIter) : (getRaw b.length).run (b ++ rest) = .ok (b, rest) := by
  simp [getRaw, takeBytes, StateT.run]

theorem getUncommon_cons (what : String) {b : UInt8} (hb : 16 ≤ b.toNat) (rest : SerialIter) :
    (getUncommon what).run (b :: rest) = .ok (b.toNat, rest) := by
  rw [getUncommon, StateT.run_bind_ok (get8_cons b rest)]
  have : ¬(b.toNat = 0 ∨ b.toNat < 16) := by omega
  simp only [this, if_false]
  rfl

theorem and_255 (n : Nat) : n &&& 255 = n % 256 := Nat.and_two_pow_sub_one_eq_mod n 8

@[simp] theorem decodeLengthLength_one {b1 : Nat} (h : b1 ≤ 192) : decodeLengthLength b1 = .ok 1 := by
  simp [decodeLengthLength, h]

/-- A length prefix reads back as the length it encodes, in each of its three sizes. -/
theorem getVLDataLength_addEncoded {length : Nat} {pre : Blob} (hpre : addEncoded length = .ok pre)
    (rest : SerialIter) : getVLDataLength.run (pre ++ rest) = .ok (length, rest) := by
  unfold addEncoded at hpre
  split_ifs at hpre with h1 h2 h3 <;> cases hpre
  · -- one byte
    have hb : length.toUInt8.toNat = length := by simp; omega
    simp only [List.cons_append, List.nil_append, getVLDataLength]
    rw [StateT.run_bind_ok (get8_cons _ rest), hb, decodeLengthLength_one h1]
    rw [StateT.run_bind_ok (StateT.run_lift_ok 1), if_pos rfl]
    simp [decodeVLLength1, show ¬ 254 < length by omega]
  · -- two bytes: `193 + high`, then `low`
    have hb1 : (193 + ((length - 193) >>> 8)).toUInt8.toNat = 193 + (length - 193) / 256 := by
      simp [Nat.shiftRight_eq_div_pow]
      omega
    have hb2 : ((length - 193) &&& 0xff).toUInt8.toNat = (length - 193) % 256 := by
      simp [and_255]
    have hll : decodeLengthLength (193 + (length - 193) / 256) = .ok 2 := by
      simp [decodeLengthLength, show ¬ 193 + (length - 193) / 256 ≤ 192 by omega,
        show 193 + (length - 193) / 256 ≤ 240 by omega]
    simp only [List.cons_append, List.nil_append, getVLDataLength]
    rw [StateT.run_bind_ok (get8_cons _ _), hb1, hll, StateT.run_bind_ok (StateT.run_lift_ok 2),
      if_neg (by decide), if_pos rfl, StateT.run_bind_ok (get8_cons _ rest), hb2]
    simp [decodeVLLength2, show ¬ 193 + (length - 193) / 256 < 193 by omega,
      show ¬ 240 < 193 + (length - 193) / 256 by omega]
    omega
  · -- three bytes: `241 + high`, then `middle`, then `low`
    have hb1 : (241 + ((length - 12481) >>> 16)).toUInt8.toNat = 241 + (length - 12481) / 65536 := by
      simp [Nat.shiftRight_eq_div_pow]
      omega
    have hb2 : (((length - 12481) >>> 8) &&& 0xff).toUInt8.toNat = (length - 12481) / 256 % 256 := by
      simp [and_255, Nat.shiftRight_eq_div_pow]
    have hb3 : ((length - 12481) &&& 0xff).toUInt8.toNat = (length - 12481) % 256 := by
      simp [and_255]
    have hll : decodeLengthLength (241 + (length - 12481) / 65536) = .ok 3 := by
      simp [decodeLengthLength, show ¬ 241 + (length - 12481) / 65536 ≤ 192 by omega,
        show ¬ 241 + (length - 12481) / 65536 ≤ 240 by omega,
        show 241 + (length - 12481) / 65536 ≤ 254 by omega]
    simp only [List.cons_append, List.nil_append, getVLDataLength]
    rw [StateT.run_bind_ok (get8_cons _ _), hb1, hll, StateT.run_bind_ok (StateT.run_lift_ok 3),
      if_neg (by decide), if_neg (by decide), StateT.run_bind_ok (get8_cons _ _), hb2,
      StateT.run_bind_ok (get8_cons _ rest), hb3]
    simp [decodeVLLength3, show ¬ 241 + (length - 12481) / 65536 < 241 by omega,
      show ¬ 254 < 241 + (length - 12481) / 65536 by omega]
    omega

/-- `addEncoded` throws exactly past the largest encodable length. -/
theorem addEncoded_isOk (length : Nat) : (∃ pre, addEncoded length = .ok pre) ↔ length ≤ 918744 := by
  unfold addEncoded
  split_ifs <;> simp <;> omega

theorem getVLDataLength_one {b1 : UInt8} (h1 : b1.toNat ≤ 192) (t : SerialIter) :
    getVLDataLength.run (b1 :: t) = .ok (b1.toNat, t) := by
  simp only [getVLDataLength]
  rw [StateT.run_bind_ok (get8_cons b1 t), decodeLengthLength_one h1,
    StateT.run_bind_ok (StateT.run_lift_ok 1), if_pos rfl]
  simp [decodeVLLength1, show ¬ 254 < b1.toNat by omega]

theorem getVLDataLength_two {b1 b2 : UInt8} (h1 : 193 ≤ b1.toNat) (h2 : b1.toNat ≤ 240) (t : SerialIter) :
    getVLDataLength.run (b1 :: b2 :: t) = .ok (193 + (b1.toNat - 193) * 256 + b2.toNat, t) := by
  have hll : decodeLengthLength b1.toNat = .ok 2 := by
    simp [decodeLengthLength, show ¬ b1.toNat ≤ 192 by omega, h2]
  simp only [getVLDataLength]
  rw [StateT.run_bind_ok (get8_cons b1 _), hll, StateT.run_bind_ok (StateT.run_lift_ok 2),
    if_neg (by decide), if_pos rfl, StateT.run_bind_ok (get8_cons b2 t)]
  simp [decodeVLLength2, show ¬ b1.toNat < 193 by omega, show ¬ 240 < b1.toNat by omega]

theorem getVLDataLength_three {b1 b2 b3 : UInt8} (h1 : 241 ≤ b1.toNat) (h2 : b1.toNat ≤ 254) (t : SerialIter) :
    getVLDataLength.run (b1 :: b2 :: b3 :: t) =
      .ok (12481 + (b1.toNat - 241) * 65536 + b2.toNat * 256 + b3.toNat, t) := by
  have hll : decodeLengthLength b1.toNat = .ok 3 := by
    simp [decodeLengthLength, show ¬ b1.toNat ≤ 192 by omega, show ¬ b1.toNat ≤ 240 by omega, h2]
  simp only [getVLDataLength]
  rw [StateT.run_bind_ok (get8_cons b1 _), hll, StateT.run_bind_ok (StateT.run_lift_ok 3),
    if_neg (by decide), if_neg (by decide), StateT.run_bind_ok (get8_cons b2 _), StateT.run_bind_ok (get8_cons b3 t)]
  simp [decodeVLLength3, show ¬ b1.toNat < 241 by omega, show ¬ 254 < b1.toNat by omega]
theorem getVLDataLength_two_short {b1 : UInt8} (h1 : 193 ≤ b1.toNat) (h2 : b1.toNat ≤ 240) :
    getVLDataLength.run [b1] = .error "invalid SerialIter get8" := by
  have hll : decodeLengthLength b1.toNat = .ok 2 := by
    simp [decodeLengthLength, show ¬ b1.toNat ≤ 192 by omega, h2]
  simp only [getVLDataLength]
  rw [StateT.run_bind_ok (get8_cons b1 _), hll, StateT.run_bind_ok (StateT.run_lift_ok 2),
    if_neg (by decide), if_pos rfl]
  rfl

theorem getVLDataLength_three_short {b1 : UInt8} (h1 : 241 ≤ b1.toNat) (h2 : b1.toNat ≤ 254) {t : SerialIter}
    (ht : t.length < 2) : getVLDataLength.run (b1 :: t) = .error "invalid SerialIter get8" := by
  have hll : decodeLengthLength b1.toNat = .ok 3 := by
    simp [decodeLengthLength, show ¬ b1.toNat ≤ 192 by omega, show ¬ b1.toNat ≤ 240 by omega, h2]
  simp only [getVLDataLength]
  rw [StateT.run_bind_ok (get8_cons b1 _), hll, StateT.run_bind_ok (StateT.run_lift_ok 3),
    if_neg (by decide), if_neg (by decide)]
  match t, ht with
  | [], _ => rfl
  | [b2], _ => rw [StateT.run_bind_ok (get8_cons b2 [])]; rfl

theorem getVLDataLength_over {b1 : UInt8} (h1 : 254 < b1.toNat) (t : SerialIter) :
    getVLDataLength.run (b1 :: t) = .error "b1>254" := by
  have hll : decodeLengthLength b1.toNat = .error "b1>254" := by
    simp [decodeLengthLength, show ¬ b1.toNat ≤ 192 by omega, show ¬ b1.toNat ≤ 240 by omega,
      show ¬ b1.toNat ≤ 254 by omega]
  simp only [getVLDataLength]
  rw [StateT.run_bind_ok (get8_cons b1 _), hll, StateT.run_bind_error (StateT.run_lift_error _)]

/-- What `getVLDataLength` accepts: one byte up to 192, two bytes from 193 to 240 on, or three
bytes from 241 to 254 on, and the length each gives. -/
theorem getVLDataLength_cases {b rest : SerialIter} {n : Nat} (h : getVLDataLength.run b = .ok (n, rest)) :
    (∃ b1, b1.toNat ≤ 192 ∧ b = b1 :: rest ∧ n = b1.toNat) ∨
    (∃ b1 b2, 193 ≤ b1.toNat ∧ b1.toNat ≤ 240 ∧ b = b1 :: b2 :: rest ∧
      n = 193 + (b1.toNat - 193) * 256 + b2.toNat) ∨
    (∃ b1 b2 b3, 241 ≤ b1.toNat ∧ b1.toNat ≤ 254 ∧ b = b1 :: b2 :: b3 :: rest ∧
      n = 12481 + (b1.toNat - 241) * 65536 + b2.toNat * 256 + b3.toNat) := by
  match b with
  | [] => cases h
  | b1 :: t =>
    rcases Nat.lt_or_ge 192 b1.toNat with hb | hb
    · rcases Nat.lt_or_ge 240 b1.toNat with hb' | hb'
      · rcases Nat.lt_or_ge 254 b1.toNat with hb'' | hb''
        · rw [getVLDataLength_over hb''] at h
          cases h
        · -- three bytes
          match t with
          | b2 :: b3 :: t =>
            rw [getVLDataLength_three hb' hb''] at h
            obtain ⟨rfl, rfl⟩ := Prod.mk.inj (Except.ok.inj h)
            exact .inr (.inr ⟨b1, b2, b3, hb', hb'', rfl, rfl⟩)
          | [] => rw [getVLDataLength_three_short hb' hb'' (by simp)] at h; cases h
          | [_] => rw [getVLDataLength_three_short hb' hb'' (by simp)] at h; cases h
      · -- two bytes
        match t with
        | b2 :: t =>
          rw [getVLDataLength_two hb hb'] at h
          obtain ⟨rfl, rfl⟩ := Prod.mk.inj (Except.ok.inj h)
          exact .inr (.inl ⟨b1, b2, hb, hb', rfl, rfl⟩)
        | [] => rw [getVLDataLength_two_short hb hb'] at h; cases h
    · rw [getVLDataLength_one hb] at h
      obtain ⟨rfl, rfl⟩ := Prod.mk.inj (Except.ok.inj h)
      exact .inl ⟨b1, hb, rfl, rfl⟩

theorem addEncoded_one {b1 : UInt8} (h1 : b1.toNat ≤ 192) : addEncoded b1.toNat = .ok [b1] := by
  rw [addEncoded, if_pos h1]
  simp

theorem addEncoded_two {b1 b2 : UInt8} (h1 : 193 ≤ b1.toNat) (h2 : b1.toNat ≤ 240) :
    addEncoded (193 + (b1.toNat - 193) * 256 + b2.toNat) = .ok [b1, b2] := by
  have hb2 := b2.toNat_lt
  rw [addEncoded, if_neg (by omega), if_pos (by omega)]
  simp only [Except.ok.injEq, List.cons.injEq, and_true]
  constructor <;> apply UInt8.toNat_inj.mp <;> simp [Nat.shiftRight_eq_div_pow, and_255] <;> omega

theorem addEncoded_three {b1 b2 b3 : UInt8} (h1 : 241 ≤ b1.toNat)
    (hn : 12481 + (b1.toNat - 241) * 65536 + b2.toNat * 256 + b3.toNat ≤ 918744) :
    addEncoded (12481 + (b1.toNat - 241) * 65536 + b2.toNat * 256 + b3.toNat) = .ok [b1, b2, b3] := by
  have hb2 := b2.toNat_lt
  have hb3 := b3.toNat_lt
  rw [addEncoded, if_neg (by omega), if_neg (by omega), if_pos hn]
  simp only [Except.ok.injEq, List.cons.injEq, and_true]
  refine ⟨?_, ?_, ?_⟩ <;> apply UInt8.toNat_inj.mp <;> simp [Nat.shiftRight_eq_div_pow, and_255] <;> omega

/-- **What `getVLDataLength` accepts is a prefix `addEncoded` writes**, or three bytes from 254 on
giving a length past the largest one `addEncoded` takes; either way the length fixes the bytes. -/
theorem getVLDataLength_eq_ok {b rest : SerialIter} {n : Nat} (h : getVLDataLength.run b = .ok (n, rest)) :
    (∃ pre, addEncoded n = .ok pre ∧ b = pre ++ rest) ∨
      (918744 < n ∧ n ≤ 929984 ∧ b = [254, ((n - 864449) / 256).toUInt8, ((n - 864449) % 256).toUInt8] ++ rest) := by
  rcases getVLDataLength_cases h with ⟨b1, h1, rfl, rfl⟩ | ⟨b1, b2, h1, h2, rfl, rfl⟩ |
    ⟨b1, b2, b3, h1, h2, rfl, rfl⟩
  · exact .inl ⟨[b1], addEncoded_one h1, rfl⟩
  · exact .inl ⟨[b1, b2], addEncoded_two h1 h2, rfl⟩
  · by_cases hn : 12481 + (b1.toNat - 241) * 65536 + b2.toNat * 256 + b3.toNat ≤ 918744
    · exact .inl ⟨[b1, b2, b3], addEncoded_three h1 hn, rfl⟩
    · -- only a first byte of 254 reaches past the largest length
      have hb2 := b2.toNat_lt
      have hb3 := b3.toNat_lt
      refine .inr ⟨by omega, by omega, ?_⟩
      simp only [List.cons_append, List.nil_append, List.cons.injEq, and_true]
      refine ⟨?_, ?_, ?_⟩ <;> apply UInt8.toNat_inj.mp <;> simp <;> omega

/-- `decodeVLLength (b1, b2, b3)` has no upper bound: the decoder takes `[254, 255, 255]` as the
length 929984, which `addEncoded` refuses. -/
theorem getVLDataLength_past_max :
    getVLDataLength.run [254, 255, 255] = .ok (929984, []) ∧ addEncoded 929984 = .error "lenlen" :=
  ⟨getVLDataLength_three (by decide) (by decide) [], rfl⟩

/-- No two prefixes the decoder accepts give one length. -/
theorem getVLDataLength_inj {b b' rest rest' : SerialIter} {n : Nat} (h : getVLDataLength.run b = .ok (n, rest))
    (h' : getVLDataLength.run b' = .ok (n, rest')) : ∃ pre, b = pre ++ rest ∧ b' = pre ++ rest' := by
  rcases getVLDataLength_eq_ok h with ⟨pre, hpre, rfl⟩ | ⟨hn, -, rfl⟩ <;>
    rcases getVLDataLength_eq_ok h' with ⟨pre', hpre', rfl⟩ | ⟨hn', -, rfl⟩
  · obtain rfl : pre = pre' := Except.ok.inj (hpre.symm.trans hpre')
    exact ⟨pre, rfl, rfl⟩
  · exact absurd ((addEncoded_isOk n).mp ⟨pre, hpre⟩) (by omega)
  · exact absurd ((addEncoded_isOk n).mp ⟨pre', hpre'⟩) (by omega)
  · exact ⟨_, rfl, rfl⟩

theorem encodeLengthLength_addEncoded {length : Nat} {pre : Blob} (h : addEncoded length = .ok pre) :
    encodeLengthLength length = .ok pre.length := by
  unfold addEncoded at h
  unfold encodeLengthLength
  split_ifs at h ⊢ <;> cases h <;> rfl

/-- `Serializer::getVLLength` reads the length `getVLDataLength` reads. -/
theorem getVLLength_of_run {data rest : SerialIter} {n : Nat} (h : getVLDataLength.run data = .ok (n, rest)) :
    getVLLength data 0 = .ok (some n) := by
  rcases getVLDataLength_cases h with ⟨b1, h1, rfl, rfl⟩ | ⟨b1, b2, h1, h2, rfl, rfl⟩ |
    ⟨b1, b2, b3, h1, h2, rfl, rfl⟩
  · simp [getVLLength, decodeLengthLength, decodeVLLength1, Except.toOption, h1, show ¬ 254 < b1.toNat by omega]
  · simp [getVLLength, decodeLengthLength, decodeVLLength2, Except.toOption, show ¬ b1.toNat ≤ 192 by omega, h2,
      show ¬ b1.toNat < 193 by omega, show ¬ 240 < b1.toNat by omega]
  · simp [getVLLength, decodeLengthLength, decodeVLLength3, Except.toOption, show ¬ b1.toNat ≤ 192 by omega,
      show ¬ b1.toNat ≤ 240 by omega, h2, show ¬ b1.toNat < 241 by omega, show ¬ 254 < b1.toNat by omega]

/-- A blob written with its length prefix reads back whole. -/
theorem getVL_addVL {b out : Blob} (h : addVL b = .ok out) (rest : SerialIter) :
    getVL.run (out ++ rest) = .ok (b, rest) := by
  unfold addVL at h
  cases hpre : addEncoded b.length with
  | error e => simp [hpre] at h
  | ok pre =>
    simp only [hpre] at h
    cases h
    rw [getVL, List.append_assoc, StateT.run_bind_ok (getVLDataLength_addEncoded hpre _)]
    exact getRaw_append b rest

/-- The byte of a common type and common name splits back into its two nibbles. -/
theorem fieldByte_nibbles {type name : Nat} (ht : type < 16) (hn : name < 16) :
    ((type <<< 4) ||| name).toUInt8.toNat >>> 4 = type ∧
      ((type <<< 4) ||| name).toUInt8.toNat &&& 15 = name := by
  have hb : ((type <<< 4) ||| name).toUInt8.toNat = type * 16 + name := by
    rw [← Nat.shiftLeft_add_eq_or_of_lt (by omega : name < 2 ^ 4), Nat.shiftLeft_eq]
    simp
    omega
  rw [hb, Nat.shiftRight_eq_div_pow, show (15 : Nat) = 2 ^ 4 - 1 from rfl, Nat.and_two_pow_sub_one_eq_mod]
  omega

/-- A field identifier reads back as written, in each of its four layouts. -/
theorem getFieldID_addFieldID {type name : Nat} (ht : 0 < type) (ht' : type < 256) (hn : 0 < name)
    (hn' : name < 256) (rest : SerialIter) :
    getFieldID.run (addFieldID type name ++ rest) = .ok ((type, name), rest) := by
  unfold addFieldID
  split_ifs with h1 h2 h2
  · -- common type, common name: one byte holding both nibbles
    obtain ⟨hty, hnm⟩ := fieldByte_nibbles h1 h2
    simp only [List.cons_append, List.nil_append, getFieldID]
    rw [StateT.run_bind_ok (get8_cons _ rest)]
    rw [hty, hnm]
    simp [show type ≠ 0 by omega, show name ≠ 0 by omega]
  · -- common type, uncommon name: the name byte follows
    have hb : (type <<< 4).toUInt8.toNat = type * 16 := by
      simp [Nat.shiftLeft_eq]
      omega
    have hname : 16 ≤ name.toUInt8.toNat := by simp; omega
    simp only [List.cons_append, List.nil_append, getFieldID]
    rw [StateT.run_bind_ok (get8_cons _ _)]
    simp only [hb, Nat.shiftRight_eq_div_pow, show (15 : Nat) = 2 ^ 4 - 1 from rfl,
      Nat.and_two_pow_sub_one_eq_mod, show type * 16 / 2 ^ 4 = type by omega,
      show type * 16 % 2 ^ 4 = 0 by omega, show type ≠ 0 by omega, if_false, if_true, pure_bind]
    rw [StateT.run_bind_ok (getUncommon_cons "name" hname rest)]
    simp only [Nat.toUInt8_eq, UInt8.toNat_ofNat', Nat.reducePow, Nat.mod_eq_of_lt hn']
    rfl
  · -- uncommon type, common name: the name nibble, then the type byte
    have htype : 16 ≤ type.toUInt8.toNat := by simp; omega
    have hb : name.toUInt8.toNat = name := by simp; omega
    simp only [List.cons_append, List.nil_append, getFieldID]
    rw [StateT.run_bind_ok (get8_cons _ _)]
    simp only [hb, Nat.shiftRight_eq_div_pow, show (15 : Nat) = 2 ^ 4 - 1 from rfl,
      Nat.and_two_pow_sub_one_eq_mod, show name / 2 ^ 4 = 0 by omega,
      show name % 2 ^ 4 = name by omega, show name ≠ 0 by omega, if_false, if_true]
    rw [StateT.run_bind_ok (getUncommon_cons "type" htype rest)]
    simp only [Nat.toUInt8_eq, UInt8.toNat_ofNat', Nat.reducePow, Nat.mod_eq_of_lt ht']
    rfl
  · -- uncommon type, uncommon name: a zero byte, then both
    have htype : 16 ≤ type.toUInt8.toNat := by simp; omega
    have hname : 16 ≤ name.toUInt8.toNat := by simp; omega
    simp only [List.cons_append, List.nil_append, getFieldID]
    rw [StateT.run_bind_ok (get8_cons _ _)]
    simp only [UInt8.toNat_zero, Nat.zero_shiftRight, Nat.zero_and, if_true]
    rw [StateT.run_bind_ok (getUncommon_cons "type" htype _)]
    rw [StateT.run_bind_ok (getUncommon_cons "name" hname rest)]
    simp only [Nat.toUInt8_eq, UInt8.toNat_ofNat', Nat.reducePow, Nat.mod_eq_of_lt ht',
      Nat.mod_eq_of_lt hn']
    rfl

end Ripple
