import ChainSqld.Lib.Radix
import ChainSqld.Protocol.Serializer

/-!
# Base58 tokens

`ripple/protocol/impl/tokens.cpp`. A token is a type byte, the payload and a four-byte checksum
(the first bytes of the double SHA-256 of the rest), written in base 58: each leading zero byte
becomes the alphabet's first character, and the rest is converted as one big number, in a buffer
of `size * (138 / 100 + 1)` base-58 digits when encoding and of `remain * 733 / 1000 + 1` bytes
when decoding. The two alphabets, Ripple's and Bitcoin's, share the code.

The hash is a parameter: both sides call the same `sha256`. Strings are their bytes. The type test
of the decoder compares `result[0]`, a `char`, with an `int`; `char` is signed here, as on x86-64,
so a type byte of 128 or more reads as negative.

`encodeToken` lays the token out at the start of a buffer, its 1024 bytes on the stack or the
`needed` bytes it computes on the heap, and gives `encodeBase58` the rest as scratch. It counts
`size * 2` scratch bytes for the payload's `size`, but `encodeBase58` fills two for each of the
`size + 5` bytes of the laid-out token, ten more. From a payload of 337 bytes on, the scratch runs
past the end of the buffer; the model makes that write out of bounds the outcome `none`.

* `decodeBase58_encodeBase58`: the base-58 layer gives back every byte string it is given;
* `encodeBase58_decodeBase58`: and writes back every string it decodes, so it has no other spelling
  of a byte string;
* `encodeToken_eq_none_iff`: the scratch stays within the buffer exactly for payloads of at most
  336 bytes;
* `decodeBase58Token_base58EncodeToken`: then a token of a type below 128 decodes to its payload, and
  to nothing under any other type.
-/

set_option autoImplicit false

namespace Ripple

/-- The bytes of an alphabet's text. -/
def alphabetBytes (s : String) : List UInt8 := s.toList.map fun c => c.toNat.toUInt8

def rippleAlphabet : List UInt8 := alphabetBytes "zpxhncf39wBUDNEGHJKLM4PQRST7VWXYZ2badeCg65jkm8oFqi1tuvAsyr"

def bitcoinAlphabet : List UInt8 := alphabetBytes "123456789ABCDEFGHJKLMNPQRSTUVWXYZabcdefghijkmnopqrstuvwxyz"

/-- `InverseAlphabet`: `-1` for every byte, then each character of the alphabet set to its index. -/
def inverseAlphabet (digits : List UInt8) : UInt8 → Int :=
  digits.zipIdx.foldl (fun map p => Function.update map p.1 p.2) fun _ => -1

/-- `encodeBase58`: the leading zero bytes as the alphabet's first character, then the rest as one
number in base 58, in a buffer of `size * (138 / 100 + 1)` digits kept least significant first,
without its leading zeros. -/
def encodeBase58 (message : Blob) (alphabet : List UInt8) : List UInt8 :=
  let zeroes := (message.takeWhile (· = 0)).length
  -- log(256) / log(58), rounded up
  let b58 := List.replicate (message.length * (138 / 100 + 1)) 0
  let b58 := Radix.convert 256 58 b58 ((message.drop zeroes).map UInt8.toNat)
  List.replicate zeroes (alphabet.getD 0 0) ++ (b58.reverse.dropWhile (· = 0)).map fun d => alphabet.getD d 0

/-- One character of `decodeBase58`'s loop: `b256 = b256 * 58 + carry`, or the end of the decoding
for a character outside the alphabet. -/
def decodeStep (inv : UInt8 → Int) (b256 : List Nat) (c : UInt8) : Option (List Nat) :=
  if inv c = -1 then none else some (Radix.mulAdd 58 256 (inv c).toNat b256).1

/-- `decodeBase58`: the leading characters of digit `0` as zero bytes, then the rest as one number
in a buffer of `remain * 733 / 1000 + 1` bytes, without its leading zeros; empty as soon as a
character is outside the alphabet. -/
def decodeBase58 (s : List UInt8) (inv : UInt8 → Int) : Blob :=
  let zeroes := (s.takeWhile fun c => inv c = 0).length
  let rest := s.drop zeroes
  -- log(58) / log(256), rounded up
  let b256 := List.replicate (rest.length * 733 / 1000 + 1) 0
  match rest.foldlM (decodeStep inv) b256 with
  | none => []
  | some b256 => List.replicate zeroes 0 ++ (b256.reverse.dropWhile (· = 0)).map Nat.toUInt8

section Token

variable (sha256 : Blob → UInt256)

/-- `checksum`: the first four bytes of the SHA-256 of the SHA-256 of the message. -/
def checksum (message : Blob) : Blob := ((sha256 (sha256 message).data).data).take 4

/-- The bytes `encodeToken` has for the laid-out token and the scratch after it: its stack buffer,
or a heap buffer of the bytes it counts as needed when that is more. -/
def encodeTokenCapacity (size : Nat) : Nat :=
  -- expanded token includes type + checksum
  let expanded := 1 + size + 4
  -- add scratch, log(256) / log(58), rounded up
  let needed := expanded + size * (138 / 100 + 1)
  if needed > 1024 then needed else 1024

/-- `encodeToken`: the data laid out as `<type><token><checksum>`, then `encodeBase58` of it with the
scratch after it, of two bytes for each byte laid out; `none` when that scratch passes the end of
the buffer. -/
def encodeToken (type : UInt8) (token : Blob) (btc : Bool) : Option (List UInt8) :=
  let expanded := 1 + token.length + 4
  -- `encodeBase58 (temp, expanded, temp + expanded, ...)` fills up to `b58begin + expanded * 2`
  if expanded + expanded * (138 / 100 + 1) > encodeTokenCapacity token.length then none
  else
    let temp := type :: token
    some (encodeBase58 (temp ++ checksum sha256 temp) (if btc then bitcoinAlphabet else rippleAlphabet))

def base58EncodeToken (type : UInt8) (token : Blob) : Option (List UInt8) := encodeToken sha256 type token false

def base58EncodeTokenBitcoin (type : UInt8) (token : Blob) : Option (List UInt8) :=
  encodeToken sha256 type token true

/-- The static `decodeBase58Token (s, type, inv)`: the bytes decoded, at least six of them, the
first (a signed `char`) equal to `type`, the last four the checksum of the others, which it returns
without the type byte. -/
def decodeToken (s : List UInt8) (type : Int) (inv : UInt8 → Int) : Blob :=
  let result := decodeBase58 s inv
  if result.isEmpty then result
  -- Reject zero length tokens
  else if result.length < 6 then []
  else if (result.headD 0).toInt8.toInt ≠ type then []
  else if checksum sha256 (result.take (result.length - 4)) ≠ result.drop (result.length - 4) then []
  else (result.take (result.length - 4)).drop 1

def decodeBase58Token (s : List UInt8) (type : Int) : Blob :=
  decodeToken sha256 s type (inverseAlphabet rippleAlphabet)

def decodeBase58TokenBitcoin (s : List UInt8) (type : Int) : Blob :=
  decodeToken sha256 s type (inverseAlphabet bitcoinAlphabet)

end Token

/-! ## Alphabets -/

/-- What the codec needs of an alphabet: 58 characters, all different. -/
structure IsAlphabet (alphabet : List UInt8) : Prop where
  length_eq : alphabet.length = 58
  nodup : alphabet.Nodup

theorem rippleAlphabet_isAlphabet : IsAlphabet rippleAlphabet := ⟨by decide, by decide⟩

theorem bitcoinAlphabet_isAlphabet : IsAlphabet bitcoinAlphabet := ⟨by decide, by decide⟩

/-- The table `InverseAlphabet` builds, from index `n` on: a character of a list without repeats
maps to `n` plus its index, every other byte keeps its entry. -/
theorem foldl_update_zipIdx (c : UInt8) : ∀ (l : List UInt8) (n : Nat) (map : UInt8 → Int), l.Nodup →
    (l.zipIdx n).foldl (fun map p => Function.update map p.1 p.2) map c =
      if c ∈ l then ((n + l.idxOf c : Nat) : Int) else map c
  | [], _, _, _ => by simp
  | a :: l, n, map, hnd => by
    have ⟨hal, hl⟩ := List.nodup_cons.mp hnd
    rw [List.zipIdx_cons, List.foldl_cons, foldl_update_zipIdx c l (n + 1) _ hl]
    by_cases hca : c = a
    · subst hca
      simp [hal, List.idxOf_cons_self]
    · by_cases hcl : c ∈ l
      · simp only [hcl, if_true, List.mem_cons, hca, or_true, List.idxOf_cons_ne l (Ne.symm hca)]
        push_cast
        ring
      · simp [hca, hcl]

namespace IsAlphabet

variable {a : List UInt8}

theorem inverse_eq (ha : IsAlphabet a) (c : UInt8) :
    inverseAlphabet a c = if c ∈ a then ((a.idxOf c : Nat) : Int) else -1 := by
  rw [inverseAlphabet, foldl_update_zipIdx c a 0 _ ha.nodup, Nat.zero_add]

/-- The digit of a character of the alphabet is its index. -/
theorem inv_getD (ha : IsAlphabet a) {d : Nat} (hd : d < 58) : inverseAlphabet a (a.getD d 0) = d := by
  have hd' : d < a.length := ha.length_eq ▸ hd
  rw [List.getD_eq_getElem _ _ hd', ha.inverse_eq, if_pos (List.getElem_mem hd'), ha.nodup.idxOf_getElem]

/-- Every byte is outside the alphabet or the character of its digit. -/
theorem getD_inv (ha : IsAlphabet a) (c : UInt8) :
    inverseAlphabet a c = -1 ∨ ∃ d : Nat, d < 58 ∧ inverseAlphabet a c = d ∧ a.getD d 0 = c := by
  rw [ha.inverse_eq]
  by_cases hc : c ∈ a
  · have hlt := List.idxOf_lt_length_iff.mpr hc
    refine Or.inr ⟨a.idxOf c, by rw [← ha.length_eq]; exact hlt, if_pos hc, ?_⟩
    rw [List.getD_eq_getElem _ _ hlt, List.getElem_idxOf]
  · exact Or.inl (if_neg hc)

end IsAlphabet

/-! ## Leading zeros -/

section Leading

variable {α : Type} {p : α → Bool}

/-- A run of `x` that `p` holds of, followed by a list that starts with something `p` fails on, is
cut by `takeWhile p` where the run ends. -/
theorem takeWhile_replicate_append {x : α} (hx : p x = true) {l : List α}
    (hl : ∀ y, l.head? = some y → p y = false) : ∀ z : Nat, (List.replicate z x ++ l).takeWhile p = List.replicate z x
  | 0 => by
    cases l with
    | nil => rfl
    | cons y l => simp [hl y rfl]
  | z + 1 => by
    rw [List.replicate_succ, List.cons_append, List.takeWhile_cons, if_pos hx,
      takeWhile_replicate_append hx hl z]

/-- Every list is its leading run of what `p` holds of, a run of `x` when `p` holds only of `x`,
followed by the rest, which does not start with such an element. -/
theorem eq_replicate_append_drop {x : α} (hp : ∀ y, p y = true → y = x) (l : List α) :
    l = List.replicate (l.takeWhile p).length x ++ l.drop (l.takeWhile p).length ∧
      ∀ y, (l.drop (l.takeWhile p).length).head? = some y → p y = false := by
  have hdrop : l.drop (l.takeWhile p).length = l.dropWhile p := by
    generalize hn : (l.takeWhile p).length = n
    conv_lhs => rw [← List.takeWhile_append_dropWhile (p := p) (l := l)]
    exact List.drop_left' hn
  have hrun : l.takeWhile p = List.replicate (l.takeWhile p).length x :=
    List.eq_replicate_iff.mpr ⟨rfl, fun y hy => hp y (List.mem_takeWhile_imp hy)⟩
  refine ⟨?_, fun y hy => ?_⟩
  · rw [hdrop, ← hrun, List.takeWhile_append_dropWhile]
  · have := List.head?_dropWhile_not p l
    rw [← hdrop, hy] at this
    exact this

end Leading

/-! ## The base-58 layer -/

/-- The encoder's buffer, two base-58 digits a byte, holds every number of the message's length. -/
theorem pow256_le (n : Nat) : 256 ^ n ≤ 58 ^ (n * (138 / 100 + 1)) := by
  rw [show 138 / 100 + 1 = 2 from rfl, pow_mul']
  exact Nat.pow_le_pow_left (by norm_num) n

/-- The decoder's buffer of `r * 733 / 1000 + 1` bytes holds every number of `r` base-58 digits,
since `58 ^ 1000 ≤ 256 ^ 733`. -/
theorem pow58_le (r : Nat) : 58 ^ r ≤ 256 ^ (r * 733 / 1000 + 1) := by
  have hbase : 58 ^ 1000 ≤ 256 ^ 733 := by decide +kernel
  have hk : 733 * r ≤ 1000 * (r * 733 / 1000 + 1) := by omega
  rw [← Nat.pow_le_pow_iff_left (by norm_num : 1000 ≠ 0)]
  calc (58 ^ r) ^ 1000 = (58 ^ 1000) ^ r := by rw [← pow_mul, ← pow_mul, mul_comm]
    _ ≤ (256 ^ 733) ^ r := Nat.pow_le_pow_left hbase r
    _ = 256 ^ (733 * r) := by rw [← pow_mul]
    _ ≤ 256 ^ (1000 * (r * 733 / 1000 + 1)) := Nat.pow_le_pow_right (by norm_num) hk
    _ = (256 ^ (r * 733 / 1000 + 1)) ^ 1000 := by rw [← pow_mul, mul_comm]

/-- `encodeBase58` of a message of `z` zero bytes and then a part not starting with zero: `z`
first characters, then the base-58 digits of the part's value, most significant first. -/
theorem encodeBase58_eq (alphabet : List UInt8) (z : Nat) {R : Blob} (hR : ∀ y, R.head? = some y → y ≠ 0) :
    encodeBase58 (List.replicate z 0 ++ R) alphabet =
      List.replicate z (alphabet.getD 0 0) ++
        (Nat.digits 58 (Radix.valueBE 256 (R.map UInt8.toNat))).reverse.map fun d => alphabet.getD d 0 := by
  have hz : ((List.replicate z (0 : UInt8) ++ R).takeWhile (· = 0)).length = z := by
    rw [takeWhile_replicate_append (by simp) (fun y hy => by simpa using hR y hy) z, List.length_replicate]
  have hdrop : (List.replicate z (0 : UInt8) ++ R).drop z = R := List.drop_left' List.length_replicate
  -- the part's value fits in the buffer
  have hdig : ∀ d ∈ (R.map UInt8.toNat).reverse, d < 256 := by
    intro d hd
    obtain ⟨y, -, rfl⟩ := List.mem_map.mp (List.mem_reverse.mp hd)
    exact y.toNat_lt
  have hfit : Radix.valueBE 256 (R.map UInt8.toNat) <
      58 ^ ((List.replicate z (0 : UInt8) ++ R).length * (138 / 100 + 1)) := by
    calc Radix.valueBE 256 (R.map UInt8.toNat) < 256 ^ (R.map UInt8.toNat).reverse.length :=
          Nat.ofDigits_lt_base_pow_length (by norm_num) hdig
      _ ≤ 256 ^ (List.replicate z (0 : UInt8) ++ R).length := Nat.pow_le_pow_right (by norm_num) (by simp)
      _ ≤ _ := pow256_le _
  obtain ⟨hv, -, hd⟩ := Radix.convert_value (m := 256) (B := 58) (by norm_num) (by norm_num) (R.map UInt8.toNat)
    (List.replicate ((List.replicate z (0 : UInt8) ++ R).length * (138 / 100 + 1)) 0) (by simp)
    (by simpa using hfit)
  simp only [encodeBase58, hz, hdrop]
  rw [Radix.strip_eq (by norm_num) _ hd, hv]
  simp

section Decode

variable {a : List UInt8}

/-- Over characters of the alphabet, the decoding loop never stops early: it is the conversion of
their digits. -/
theorem foldlM_decodeStep (ha : IsAlphabet a) : ∀ (D buf : List Nat), (∀ d ∈ D, d < 58) →
    (D.map fun d => a.getD d 0).foldlM (decodeStep (inverseAlphabet a)) buf = some (Radix.convert 58 256 buf D)
  | [], _, _ => rfl
  | d :: D, buf, hD => by
    have hd := ha.inv_getD (hD d List.mem_cons_self)
    have hstep : decodeStep (inverseAlphabet a) buf (a.getD d 0) = some (Radix.mulAdd 58 256 d buf).1 := by
      rw [decodeStep, hd, if_neg (by omega), Int.toNat_natCast]
    rw [List.map_cons, List.foldlM_cons, hstep, Option.bind_eq_bind, Option.bind_some,
      foldlM_decodeStep ha D _ (fun x hx => hD x (List.mem_cons_of_mem d hx))]
    rfl

/-- A decoding stopped by a character outside the alphabet: every character it read is in the
alphabet. -/
theorem decodeStep_valid : ∀ (rest : List UInt8) (buf b : List Nat) (inv : UInt8 → Int),
    rest.foldlM (decodeStep inv) buf = some b → ∀ c ∈ rest, inv c ≠ -1
  | [], _, _, _, _ => by simp
  | c :: rest, buf, b, inv, h => by
    rw [List.foldlM_cons] at h
    by_cases hc : inv c = -1
    · simp [decodeStep, hc] at h
    · intro c' hc'
      rcases List.mem_cons.mp hc' with rfl | hc'
      · exact hc
      · simp only [decodeStep, hc, if_false, Option.bind_eq_bind, Option.bind_some] at h
        exact decodeStep_valid rest _ b inv h c' hc'

/-- A non-empty decoding read only characters of the alphabet after the leading run. -/
theorem decodeBase58_valid {s : List UInt8} {inv : UInt8 → Int} (h : decodeBase58 s inv ≠ []) :
    ∀ c ∈ s.drop (s.takeWhile fun c => decide (inv c = 0)).length, inv c ≠ -1 := by
  simp only [decodeBase58] at h
  split at h
  · exact absurd rfl h
  · rename_i b hf
    exact decodeStep_valid _ _ b inv hf

/-- `decodeBase58` of `z` first characters and then digits not starting with zero: `z` zero bytes,
then the bytes of the digits' value, most significant first. -/
theorem decodeBase58_eq (ha : IsAlphabet a) (z : Nat) {D : List Nat} (hD : ∀ d ∈ D, d < 58)
    (hhead : ∀ d, D.head? = some d → d ≠ 0) :
    decodeBase58 (List.replicate z (a.getD 0 0) ++ D.map fun d => a.getD d 0) (inverseAlphabet a) =
      List.replicate z 0 ++ (Nat.digits 256 (Radix.valueBE 58 D)).reverse.map Nat.toUInt8 := by
  have h0 : inverseAlphabet a (a.getD 0 0) = 0 := ha.inv_getD (by norm_num)
  have hz : ((List.replicate z (a.getD 0 0) ++ D.map fun d => a.getD d 0).takeWhile
      fun c => inverseAlphabet a c = 0).length = z := by
    rw [takeWhile_replicate_append (by simp only [h0, decide_true]) ?_ z, List.length_replicate]
    intro y hy
    cases D with
    | nil => cases hy
    | cons d D =>
      simp only [List.map_cons, List.head?_cons, Option.some.injEq] at hy
      subst hy
      show decide (inverseAlphabet a (a.getD d 0) = 0) = false
      rw [ha.inv_getD (hD d List.mem_cons_self)]
      simpa using hhead d rfl
  have hdrop : (List.replicate z (a.getD 0 0) ++ D.map fun d => a.getD d 0).drop z = D.map fun d => a.getD d 0 :=
    List.drop_left' List.length_replicate
  -- the digits' value fits in the buffer
  have hfit : Radix.valueBE 58 D < 256 ^ ((D.map fun d => a.getD d 0).length * 733 / 1000 + 1) := by
    calc Radix.valueBE 58 D < 58 ^ D.reverse.length :=
          Nat.ofDigits_lt_base_pow_length (by norm_num) (fun d hd => hD d (List.mem_reverse.mp hd))
      _ ≤ _ := by simpa using pow58_le D.length
  obtain ⟨hv, -, hd⟩ := Radix.convert_value (m := 58) (B := 256) (by norm_num) (by norm_num) D
    (List.replicate ((D.map fun d => a.getD d 0).length * 733 / 1000 + 1) 0) (by simp) (by simpa using hfit)
  simp only [decodeBase58, hz, hdrop, foldlM_decodeStep ha D _ hD]
  rw [Radix.strip_eq (by norm_num) _ hd, hv]
  simp

/-- The bytes of a number, most significant first, read back as numbers. -/
theorem map_toNat_digits (V : Nat) :
    ((Nat.digits 256 V).reverse.map Nat.toUInt8).map UInt8.toNat = (Nat.digits 256 V).reverse := by
  rw [List.map_map]
  refine (List.map_congr_left fun d hd => ?_).trans (List.map_id _)
  have hd' : d < 256 := Nat.digits_lt_base (by norm_num) (List.mem_reverse.mp hd)
  simp [Nat.toUInt8, UInt8.toNat_ofNat', Nat.mod_eq_of_lt hd']

/-- **Decoding gives back what was encoded**, for every byte string. -/
theorem decodeBase58_encodeBase58 (ha : IsAlphabet a) (message : Blob) :
    decodeBase58 (encodeBase58 message a) (inverseAlphabet a) = message := by
  obtain ⟨hsplit, hhead⟩ := eq_replicate_append_drop (p := fun y : UInt8 => decide (y = 0)) (x := 0) (by simp) message
  generalize (message.takeWhile fun y => decide (y = 0)).length = z at hsplit hhead
  generalize message.drop z = R at hsplit hhead
  subst hsplit
  have hR : ∀ y, R.head? = some y → y ≠ 0 := fun y hy => by simpa using hhead y hy
  obtain ⟨hD, hDhead⟩ := Radix.digits_reverse_spec (B := 58) (by norm_num) (Radix.valueBE 256 (R.map UInt8.toNat))
  rw [encodeBase58_eq a z hR, decodeBase58_eq ha z hD hDhead, Radix.valueBE, List.reverse_reverse,
    Nat.ofDigits_digits, Radix.valueBE]
  -- the bytes of the value are the part itself
  rw [Radix.digits_ofDigits_reverse (by norm_num) _ (by simpa using fun y _ => y.toNat_lt) (by
    intro h0
    cases R with
    | nil => cases h0
    | cons y R =>
      simp only [List.map_cons, List.head?_cons, Option.some.injEq] at h0
      exact hR y rfl (UInt8.toNat_inj.mp (by simpa using h0)))]
  simp [Function.comp_def, Nat.toUInt8, UInt8.ofNat_toNat]

/-- **Every string the decoder reads is the encoding of what it reads**: a byte string has no
other spelling, leading zeros included. -/
theorem encodeBase58_decodeBase58 (ha : IsAlphabet a) (s : List UInt8) (h : decodeBase58 s (inverseAlphabet a) ≠ []) :
    encodeBase58 (decodeBase58 s (inverseAlphabet a)) a = s := by
  -- a character of digit zero is the alphabet's first
  have hp : ∀ y, decide (inverseAlphabet a y = 0) = true → y = a.getD 0 0 := by
    intro y hy
    rcases ha.getD_inv y with h1 | ⟨d, -, hinv, hget⟩
    · simp [h1] at hy
    · have hd0 : d = 0 := by
        simp only [hinv, decide_eq_true_eq] at hy
        omega
      rw [← hget, hd0]
  obtain ⟨hsplit, hhead⟩ := eq_replicate_append_drop hp s
  have hvalid := decodeBase58_valid h
  generalize (s.takeWhile fun c => decide (inverseAlphabet a c = 0)).length = z at hsplit hhead hvalid
  generalize s.drop z = rest at hsplit hhead hvalid
  subst hsplit
  -- the rest as digits
  have hdigit : ∀ c ∈ rest, ∃ d : Nat, d < 58 ∧ inverseAlphabet a c = d ∧ a.getD d 0 = c := fun c hc =>
    (ha.getD_inv c).resolve_left (hvalid c hc)
  have hrest : rest = (rest.map fun c => (inverseAlphabet a c).toNat).map fun d => a.getD d 0 := by
    rw [List.map_map]
    refine (List.map_id _).symm.trans (List.map_congr_left fun c hc => ?_)
    obtain ⟨d, -, hinv, hget⟩ := hdigit c hc
    simp only [id, Function.comp_apply, hinv, Int.toNat_natCast]
    exact hget.symm
  have hD : ∀ d ∈ rest.map fun c => (inverseAlphabet a c).toNat, d < 58 := by
    simp only [List.mem_map]
    rintro d ⟨c, hc, rfl⟩
    obtain ⟨d', hd', hinv, -⟩ := hdigit c hc
    simpa [hinv] using hd'
  have hDhead : ∀ d, (rest.map fun c => (inverseAlphabet a c).toNat).head? = some d → d ≠ 0 := by
    intro d hd
    cases rest with
    | nil => cases hd
    | cons c rest =>
      simp only [List.map_cons, List.head?_cons, Option.some.injEq] at hd
      obtain ⟨d', -, hinv, -⟩ := hdigit c List.mem_cons_self
      have hc := hhead c rfl
      simp only [hinv, decide_eq_false_iff_not] at hc
      rw [← hd, hinv]
      simpa using hc
  obtain ⟨hVlt, hVhead⟩ := Radix.digits_reverse_spec (B := 256) (by norm_num)
    (Radix.valueBE 58 (rest.map fun c => (inverseAlphabet a c).toNat))
  conv_lhs => rw [hrest]
  rw [decodeBase58_eq ha z hD hDhead, encodeBase58_eq a z ?_]
  · -- the bytes read back are the value, whose base-58 digits are the rest
    rw [map_toNat_digits, Radix.valueBE, List.reverse_reverse, Nat.ofDigits_digits, Radix.valueBE,
      Radix.digits_ofDigits_reverse (by norm_num) _ hD (fun h0 => hDhead 0 h0 rfl), ← hrest]
  · -- the first byte of the value is not zero
    intro y hy
    rw [List.head?_map, Option.map_eq_some_iff] at hy
    obtain ⟨d, hd, rfl⟩ := hy
    have hlt := hVlt d (List.mem_of_mem_head? hd)
    have hne := hVhead d hd
    simp only [ne_eq, Nat.toUInt8, ← UInt8.toNat_inj, UInt8.toNat_ofNat', Nat.mod_eq_of_lt hlt]
    simpa using hne

end Decode

/-! ## The token layer -/

/-- A byte read as a signed `char`: from 128 on it is negative. -/
theorem toInt8_toInt (b : UInt8) : b.toInt8.toInt = if b.toNat < 128 then (b.toNat : Int) else b.toNat - 256 := by
  rw [Int8.toInt, BitVec.toInt, UInt8.toBitVec_toInt8, UInt8.toNat_toBitVec]
  split_ifs <;> omega

/-- The decoder's type test: a signed first byte equals a type byte exactly when it is that byte
and below 128. -/
theorem toInt8_toInt_eq_iff (b u : UInt8) : b.toInt8.toInt = (u.toNat : Int) ↔ u = b ∧ b.toNat < 128 := by
  have hlt := b.toNat_lt
  rw [toInt8_toInt, ← UInt8.toNat_inj]
  split_ifs with hb
  · constructor
    · intro h
      omega
    · rintro ⟨h, -⟩
      omega
  · constructor
    · intro h
      omega
    · rintro ⟨-, h⟩
      exact absurd h hb

section TokenLaws

variable (sha256 : Blob → UInt256)

@[simp] theorem length_checksum (message : Blob) : (checksum sha256 message).length = 4 := by
  simp [checksum, BaseUInt.size_eq]

/-- The decoder's checks on a decoding laid out as `<type><token><checksum>`: the length and the
checksum pass, and only the type test is left. -/
theorem decodeToken_of_layout {inv : UInt8 → Int} {s : List UInt8} (t : UInt8) {p : Blob} (hp : p ≠ [])
    (type : Int) (hs : decodeBase58 s inv = (t :: p) ++ checksum sha256 (t :: p)) :
    decodeToken sha256 s type inv = if t.toInt8.toInt = type then p else [] := by
  have hlen : ((t :: p) ++ checksum sha256 (t :: p)).length - 4 = (t :: p).length := by simp
  have hsix : ¬((t :: p) ++ checksum sha256 (t :: p)).length < 6 := by
    have := List.length_pos_iff.mpr hp
    simp only [List.length_append, List.length_cons, length_checksum]
    omega
  simp only [decodeToken, hs, hlen, List.take_left, List.drop_left, hsix]
  simp

/-- **A decoding that returns something is the layout of what it returns**, under a first byte
that passed the type test. -/
theorem decodeToken_eq_layout {inv : UInt8 → Int} {s : List UInt8} {type : Int} {p : Blob}
    (h : decodeToken sha256 s type inv = p) (hp : p ≠ []) :
    ∃ b : UInt8, b.toInt8.toInt = type ∧ decodeBase58 s inv = (b :: p) ++ checksum sha256 (b :: p) := by
  simp only [decodeToken] at h
  generalize decodeBase58 s inv = result at h ⊢
  split_ifs at h with h0 h6 htype hsum
  · exact absurd (h ▸ List.isEmpty_iff.mp h0) hp
  · exact absurd h.symm hp
  · exact absurd h.symm hp
  · exact absurd h.symm hp
  · obtain ⟨b, rest, rfl⟩ : ∃ b rest, result = b :: rest := List.exists_cons_of_ne_nil (by simpa using h0)
    -- the bytes before the checksum are the type byte and what is returned
    have htake : (b :: rest).take ((b :: rest).length - 4) = b :: p := by
      obtain ⟨n, hn⟩ : ∃ n, (b :: rest).length - 4 = n + 1 := ⟨(b :: rest).length - 5, by omega⟩
      rw [hn, List.take_succ_cons, ← h, hn, List.take_succ_cons, List.drop_one, List.tail_cons]
    refine ⟨b, by simpa using htype, ?_⟩
    calc b :: rest = (b :: rest).take ((b :: rest).length - 4) ++ (b :: rest).drop ((b :: rest).length - 4) :=
          (List.take_append_drop _ _).symm
      _ = (b :: p) ++ checksum sha256 (b :: p) := by rw [← not_not.mp hsum, htake]

variable {a : List UInt8}

/-- The token of a type byte `t` decodes to its payload under type `u` exactly when `u = t` and
`t` is below 128, and to nothing otherwise. -/
theorem decodeToken_encodeToken (ha : IsAlphabet a) (t u : UInt8) {p : Blob} (hp : p ≠ []) :
    decodeToken sha256 (encodeBase58 ((t :: p) ++ checksum sha256 (t :: p)) a) u.toNat (inverseAlphabet a) =
      if u = t ∧ t.toNat < 128 then p else [] := by
  rw [decodeToken_of_layout sha256 t hp _ (decodeBase58_encodeBase58 ha _)]
  simp only [toInt8_toInt_eq_iff]

/-- **A token has one spelling**: a string that decodes to a payload under a type byte is the
token of that byte and payload. -/
theorem encodeToken_decodeToken (ha : IsAlphabet a) {s : List UInt8} {t : UInt8} {p : Blob}
    (h : decodeToken sha256 s t.toNat (inverseAlphabet a) = p) (hp : p ≠ []) :
    encodeBase58 ((t :: p) ++ checksum sha256 (t :: p)) a = s := by
  obtain ⟨b, hb, hs⟩ := decodeToken_eq_layout sha256 h hp
  obtain ⟨rfl, -⟩ := (toInt8_toInt_eq_iff b t).mp hb
  rw [← hs]
  exact encodeBase58_decodeBase58 ha s (by simp [hs])

/-- The scratch `encodeBase58` fills stays within `encodeToken`'s buffer exactly for payloads of at
most 336 bytes: from 337 bytes on it runs past the stack buffer, and from 340 bytes on, where the
buffer is the `needed` bytes on the heap, it ends ten bytes past it. -/
theorem scratch_le_capacity_iff (size : Nat) :
    (1 + size + 4) + (1 + size + 4) * (138 / 100 + 1) ≤ encodeTokenCapacity size ↔ size ≤ 336 := by
  dsimp only [encodeTokenCapacity]
  split_ifs <;> omega

/-- **`encodeToken` writes past its buffer** exactly for payloads of 337 bytes or more. -/
theorem encodeToken_eq_none_iff (type : UInt8) (token : Blob) (btc : Bool) :
    encodeToken sha256 type token btc = none ↔ 337 ≤ token.length := by
  have hfit := scratch_le_capacity_iff token.length
  dsimp only [encodeToken]
  split
  · exact iff_of_true rfl (by omega)
  · exact iff_of_false (by simp) (by omega)

/-- Within its buffer, `encodeToken` is the base-58 text of the laid-out token. -/
theorem encodeToken_of_le (type : UInt8) {token : Blob} (hlen : token.length ≤ 336) (btc : Bool) :
    encodeToken sha256 type token btc =
      some (encodeBase58 ((type :: token) ++ checksum sha256 (type :: token))
        (if btc then bitcoinAlphabet else rippleAlphabet)) := by
  have hfit := (scratch_le_capacity_iff token.length).mpr hlen
  dsimp only [encodeToken]
  rw [if_neg (by omega)]

/-- The token of type byte 128 decodes to nothing under its own type: its first byte reads as -128. -/
example :
    (base58EncodeToken (fun _ => BaseUInt.zero 32) 128 [1]).map (decodeBase58Token (fun _ => BaseUInt.zero 32) · 128) =
      some [] := by
  rw [base58EncodeToken, encodeToken_of_le _ 128 (by decide) false]
  exact congrArg some ((decodeToken_encodeToken _ rippleAlphabet_isAlphabet 128 128 (p := [1]) (by decide)).trans
    (by decide))

end TokenLaws

end Ripple
