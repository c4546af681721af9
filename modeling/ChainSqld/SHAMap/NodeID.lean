import ChainSqld.Protocol.Serializer
import ChainSqld.Lib.Prefix

/-!
# Keys and node positions of a SHAMap

A SHAMap key is a `uint256` read as 64 nibbles from the most significant end; the node at depth `d`
sends a key down the branch given by nibble `d` (`SHAMapNodeID::selectBranch`). The v2 map
compresses paths and stores in each inner node its depth and the common key prefix of everything
below it, compared and computed byte by byte (`has_common_prefix`, `get_common_prefix` and the
static `prefix` of `SHAMap.cpp`).

- `BaseUInt.nibble` and its byte-level facts; keys with the same 64 nibbles are equal
  (`BaseUInt.eq_of_nibble`);
- `SHAMapNodeID` with `selectBranch`, `getChildNodeID` and `isRoot`;
- the byte loops `keyPrefix`, `hasCommonPrefix`, `getCommonPrefix` and `firstDiffDepth`, each with
  its meaning on nibbles (`nibble_keyPrefix`, `hasCommonPrefix_iff`, `getCommonPrefix_spec`,
  `firstDiffDepth_spec`).
-/

namespace Ripple

open Prefix

/-! ## Bytes and nibbles -/

/-- Masking a byte with `0xF0` keeps its high nibble. -/
theorem nat_and_240 : ∀ n < 256, n &&& 240 = n / 16 * 16 := by decide +kernel

theorem UInt8.toNat_and_F0 (a : UInt8) : (a &&& 0xF0).toNat = a.toNat / 16 * 16 := by
  rw [UInt8.toNat_and]
  exact nat_and_240 _ a.toNat_lt

theorem UInt8.and_F0_eq_iff {a b : UInt8} : a &&& 0xF0 = b &&& 0xF0 ↔ a.toNat / 16 = b.toNat / 16 := by
  rw [← UInt8.toNat_inj, UInt8.toNat_and_F0, UInt8.toNat_and_F0]
  omega

theorem UInt8.eq_iff_nibbles {a b : UInt8} :
    a = b ↔ a.toNat / 16 = b.toNat / 16 ∧ a.toNat % 16 = b.toNat % 16 := by
  rw [← UInt8.toNat_inj]
  omega

namespace BaseUInt

variable {n : Nat}

/-- Byte `i` of a fixed-width value, most significant first (`begin()[i]`); zero past the end. -/
def byteAt (x : BaseUInt n) (i : Nat) : UInt8 := x.data.getD i 0

theorem byteAt_of_le (x : BaseUInt n) {i : Nat} (hi : n ≤ i) : x.byteAt i = 0 := by
  unfold byteAt
  rw [List.getD_eq_default]
  rw [x.size_eq]
  exact hi

@[simp] theorem byteAt_zero (i : Nat) : (zero n).byteAt i = 0 := by
  simp [byteAt, zero, List.getD_eq_getElem?_getD, List.getElem?_replicate]
  split <;> rfl

/-- Values with the same bytes are equal. -/
theorem eq_of_byteAt {x y : BaseUInt n} (h : ∀ i < n, x.byteAt i = y.byteAt i) : x = y := by
  obtain ⟨xs, hx⟩ := x
  obtain ⟨ys, hy⟩ := y
  have hxy : xs = ys := by
    apply List.ext_getElem (hx.trans hy.symm)
    intro i h₁ h₂
    have hi := h i (hx ▸ h₁)
    simp only [byteAt] at hi
    rwa [List.getD_eq_getElem _ _ h₁, List.getD_eq_getElem _ _ h₂] at hi
  subst hxy
  rfl

/-- Nibble `d`, counted from the most significant end: the high half of byte `d / 2` at even `d`
(`branch >>= 4`) and its low half at odd `d` (`branch &= 0xf`). -/
def nibble (k : BaseUInt n) (d : Nat) : Fin 16 :=
  let b := (k.byteAt (d / 2)).toNat
  if d % 2 = 1 then ⟨b % 16, Nat.mod_lt _ (by decide)⟩
  else ⟨b / 16, by have := (k.byteAt (d / 2)).toNat_lt; omega⟩

theorem nibble_val (k : BaseUInt n) (d : Nat) :
    (k.nibble d).val =
      if d % 2 = 1 then (k.byteAt (d / 2)).toNat % 16 else (k.byteAt (d / 2)).toNat / 16 := by
  dsimp only [nibble]
  split_ifs <;> rfl

theorem nibble_even (k : BaseUInt n) (i : Nat) : (k.nibble (2 * i)).val = (k.byteAt i).toNat / 16 := by
  rw [nibble_val, if_neg (by omega), Nat.mul_div_cancel_left _ (by decide)]

theorem nibble_odd (k : BaseUInt n) (i : Nat) :
    (k.nibble (2 * i + 1)).val = (k.byteAt i).toNat % 16 := by
  rw [nibble_val, if_pos (by omega)]
  congr 3
  omega

theorem byteAt_eq_iff_nibble {k k' : BaseUInt n} {i : Nat} :
    k.byteAt i = k'.byteAt i ↔ k.nibble (2 * i) = k'.nibble (2 * i) ∧
      k.nibble (2 * i + 1) = k'.nibble (2 * i + 1) := by
  rw [UInt8.eq_iff_nibbles, Fin.ext_iff, Fin.ext_iff, nibble_even, nibble_even, nibble_odd, nibble_odd]

/-- Keys with the same nibbles are equal. -/
theorem eq_of_nibble {k k' : BaseUInt n} (h : AgreeBelow (2 * n) k.nibble k'.nibble) : k = k' := by
  apply eq_of_byteAt
  intro i hi
  exact byteAt_eq_iff_nibble.mpr ⟨h _ (by omega), h _ (by omega)⟩

theorem nibble_of_le (k : BaseUInt n) {d : Nat} (hd : 2 * n ≤ d) : k.nibble d = 0 := by
  apply Fin.ext
  rw [nibble_val, byteAt_of_le k (by omega)]
  split <;> rfl

end BaseUInt

/-! ## Node positions -/

/-- The position of a node: its depth in nibbles and the key prefix that leads to it. -/
structure SHAMapNodeID where
  mDepth : Nat
  mNodeID : UInt256
deriving DecidableEq, Repr

namespace SHAMapNodeID

/-- The root position, `SHAMapNodeID()`. -/
def root : SHAMapNodeID := ⟨0, BaseUInt.zero 32⟩

def isRoot (id : SHAMapNodeID) : Bool := id.mDepth == 0

/-- The branch that `hash` takes below this node; only the depth is read. -/
def selectBranch (id : SHAMapNodeID) (hash : UInt256) : Fin 16 := hash.nibble id.mDepth

/-- The position of child `m`: one nibble deeper, with nibble `mDepth` of the prefix set to `m`. -/
def getChildNodeID (id : SHAMapNodeID) (m : Fin 16) : SHAMapNodeID :=
  let nib : UInt8 := if id.mDepth % 2 = 1 then m.val.toUInt8 else m.val.toUInt8 <<< 4
  ⟨id.mDepth + 1, ⟨id.mNodeID.data.modify (id.mDepth / 2) (· ||| nib), by
    rw [List.length_modify]; exact id.mNodeID.size_eq⟩⟩

@[simp] theorem root_mDepth : root.mDepth = 0 := rfl

@[simp] theorem getChildNodeID_mDepth (id : SHAMapNodeID) (m : Fin 16) :
    (id.getChildNodeID m).mDepth = id.mDepth + 1 := rfl

@[simp] theorem selectBranch_mk (d : Nat) (c hash : UInt256) :
    (SHAMapNodeID.mk d c).selectBranch hash = hash.nibble d := rfl

theorem isRoot_iff (id : SHAMapNodeID) : id.isRoot = true ↔ id.mDepth = 0 := by
  simp [isRoot]

end SHAMapNodeID

/-! ## Prefix loops of the v2 inner nodes -/

/-- The key cut to its first `depth` nibbles, the rest zero (the static `prefix` of `SHAMap.cpp`). -/
def keyPrefix (depth : Nat) (key : UInt256) : UInt256 :=
  ⟨(List.range 32).map fun i =>
      if i < depth / 2 then key.byteAt i
      else if i = depth / 2 ∧ depth % 2 = 1 then key.byteAt i &&& 0xF0
      else 0,
    by simp⟩

theorem byteAt_keyPrefix (depth : Nat) (key : UInt256) (i : Nat) :
    (keyPrefix depth key).byteAt i =
      if i < depth / 2 then key.byteAt i
      else if i = depth / 2 ∧ depth % 2 = 1 then key.byteAt i &&& 0xF0
      else 0 := by
  by_cases hi : i < 32
  · simp [keyPrefix, BaseUInt.byteAt, hi]
  · rw [BaseUInt.byteAt_of_le _ (by omega), BaseUInt.byteAt_of_le key (by omega)]
    split_ifs <;> rfl

theorem nibble_keyPrefix (depth : Nat) (key : UInt256) (i : Nat) :
    (keyPrefix depth key).nibble i = if i < depth then key.nibble i else 0 := by
  apply Fin.ext
  have hk := (key.byteAt (i / 2)).toNat_lt
  have hm := UInt8.toNat_and_F0 (key.byteAt (i / 2))
  rw [BaseUInt.nibble_val, byteAt_keyPrefix]
  split_ifs <;> simp_all [BaseUInt.nibble_val] <;> omega

theorem keyPrefix_eq_iff {depth : Nat} {k k' : UInt256} :
    keyPrefix depth k = keyPrefix depth k' ↔ AgreeBelow depth k.nibble k'.nibble := by
  constructor
  · intro h i hi
    have := congrArg (BaseUInt.nibble · i) h
    simpa [nibble_keyPrefix, hi] using this
  · intro h
    apply BaseUInt.eq_of_nibble
    intro i _
    rw [nibble_keyPrefix, nibble_keyPrefix]
    split_ifs with hi
    · exact h i hi
    · rfl

/-- `SHAMapInnerNodeV2::has_common_prefix`: the whole bytes of the prefix, then the high nibble of
the next byte at odd depth. -/
def hasCommonPrefix (depth : Nat) (common key : UInt256) : Bool :=
  (List.range (depth / 2)).all (fun i => common.byteAt i == key.byteAt i) &&
    (depth % 2 == 0 || (common.byteAt (depth / 2) &&& 0xF0) == (key.byteAt (depth / 2) &&& 0xF0))

theorem hasCommonPrefix_iff (depth : Nat) (common key : UInt256) :
    hasCommonPrefix depth common key = true ↔ AgreeBelow depth common.nibble key.nibble := by
  simp only [hasCommonPrefix, Bool.and_eq_true, List.all_eq_true, List.mem_range, beq_iff_eq,
    Bool.or_eq_true, UInt8.and_F0_eq_iff]
  constructor
  · rintro ⟨hbytes, hodd⟩ i hi
    rcases Nat.even_or_odd' i with ⟨j, rfl | rfl⟩
    · by_cases hj : j < depth / 2
      · exact (BaseUInt.byteAt_eq_iff_nibble.mp (hbytes j hj)).1
      · have hd : depth % 2 = 1 ∧ j = depth / 2 := by omega
        rcases hodd with h0 | hhi
        · omega
        · apply Fin.ext
          rw [BaseUInt.nibble_even, BaseUInt.nibble_even, hd.2]
          exact hhi
    · exact (BaseUInt.byteAt_eq_iff_nibble.mp (hbytes j (by omega))).2
  · intro h
    refine ⟨fun j hj => BaseUInt.byteAt_eq_iff_nibble.mpr ⟨h _ (by omega), h _ (by omega)⟩, ?_⟩
    by_cases hd : depth % 2 = 0
    · exact Or.inl hd
    · right
      have := congrArg Fin.val (h (2 * (depth / 2)) (by omega))
      rwa [BaseUInt.nibble_even, BaseUInt.nibble_even] at this

/-- `SHAMapInnerNodeV2::get_common_prefix`: how many leading nibbles of `key` agree with the
node's prefix, up to its depth. The loop runs over the whole bytes `i` with the count `2 * i`. -/
def getCommonPrefix (depth : Nat) (common key : UInt256) : Nat :=
  loop 0 (depth / 2)
where
  loop (i : Nat) : Nat → Nat
    | 0 =>
      if depth % 2 = 1 ∧ (common.byteAt i &&& 0xF0) = (key.byteAt i &&& 0xF0) then 2 * i + 1
      else 2 * i
    | n + 1 =>
      if common.byteAt i ≠ key.byteAt i then
        if (common.byteAt i &&& 0xF0) = (key.byteAt i &&& 0xF0) then 2 * i + 1 else 2 * i
      else loop (i + 1) n

/-- The length of the longest common prefix of a node's prefix and a key, capped at the depth. -/
def CommonPrefixSpec (depth : Nat) (common key : UInt256) (r : Nat) : Prop :=
  r ≤ depth ∧ AgreeBelow r common.nibble key.nibble ∧ (r < depth → common.nibble r ≠ key.nibble r)

theorem getCommonPrefix_loop_spec (depth : Nat) (common key : UInt256) (n : Nat) :
    ∀ i, i + n = depth / 2 → AgreeBelow (2 * i) common.nibble key.nibble →
      CommonPrefixSpec depth common key (getCommonPrefix.loop depth common key i n) := by
  have hhi : ∀ i, (common.byteAt i &&& 0xF0 = key.byteAt i &&& 0xF0) ↔
      common.nibble (2 * i) = key.nibble (2 * i) := fun i => by
    rw [UInt8.and_F0_eq_iff, Fin.ext_iff, BaseUInt.nibble_even, BaseUInt.nibble_even]
  induction n with
  | zero =>
    intro i hi hag
    simp only [getCommonPrefix.loop, hhi]
    split_ifs with h
    · refine ⟨by omega, agreeBelow_succ_iff.mpr ⟨hag, h.2⟩, fun hlt => by omega⟩
    · refine ⟨by omega, hag, fun _ => ?_⟩
      exact fun he => h ⟨by omega, he⟩
  | succ n ih =>
    intro i hi hag
    simp only [getCommonPrefix.loop, hhi]
    split_ifs with hne heq
    · have hlo : common.nibble (2 * i + 1) ≠ key.nibble (2 * i + 1) :=
        fun he => hne (BaseUInt.byteAt_eq_iff_nibble.mpr ⟨heq, he⟩)
      exact ⟨by omega, agreeBelow_succ_iff.mpr ⟨hag, heq⟩, fun _ => hlo⟩
    · exact ⟨by omega, hag, fun _ => heq⟩
    · have hbyte := BaseUInt.byteAt_eq_iff_nibble.mp (not_not.mp hne)
      apply ih (i + 1) (by omega)
      rw [show 2 * (i + 1) = 2 * i + 1 + 1 by ring]
      exact agreeBelow_succ_iff.mpr ⟨agreeBelow_succ_iff.mpr ⟨hag, hbyte.1⟩, hbyte.2⟩

theorem getCommonPrefix_spec (depth : Nat) (common key : UInt256) :
    CommonPrefixSpec depth common key (getCommonPrefix depth common key) :=
  getCommonPrefix_loop_spec depth common key _ 0 (by omega) (AgreeBelow.zero _ _)

/-- The leading-byte loop of `SHAMapInnerNodeV2::setChildren`: the first byte where two keys differ,
then one more nibble when their high nibbles there agree. -/
def firstDiffDepth (k1 k2 : UInt256) : Nat :=
  loop 0 32
where
  loop (i : Nat) : Nat → Nat
    | 0 => 2 * i
    | n + 1 =>
      if k1.byteAt i = k2.byteAt i then loop (i + 1) n
      else if (k1.byteAt i &&& 0xF0) = (k2.byteAt i &&& 0xF0) then 2 * i + 1 else 2 * i

theorem firstDiffDepth_loop_spec (k1 k2 : UInt256) (hne : k1 ≠ k2) (n : Nat) :
    ∀ i, i + n = 32 → AgreeBelow (2 * i) k1.nibble k2.nibble →
      CommonPrefixSpec 64 k1 k2 (firstDiffDepth.loop k1 k2 i n) := by
  have hhi : ∀ i, (k1.byteAt i &&& 0xF0 = k2.byteAt i &&& 0xF0) ↔
      k1.nibble (2 * i) = k2.nibble (2 * i) := fun i => by
    rw [UInt8.and_F0_eq_iff, Fin.ext_iff, BaseUInt.nibble_even, BaseUInt.nibble_even]
  induction n with
  | zero =>
    intro i hi hag
    exact absurd (BaseUInt.eq_of_nibble (by rw [show 2 * 32 = 2 * i by omega]; exact hag)) hne
  | succ n ih =>
    intro i hi hag
    simp only [firstDiffDepth.loop, hhi]
    split_ifs with heqb heq
    · have hbyte := BaseUInt.byteAt_eq_iff_nibble.mp heqb
      apply ih (i + 1) (by omega)
      rw [show 2 * (i + 1) = 2 * i + 1 + 1 by ring]
      exact agreeBelow_succ_iff.mpr ⟨agreeBelow_succ_iff.mpr ⟨hag, hbyte.1⟩, hbyte.2⟩
    · have hlo : k1.nibble (2 * i + 1) ≠ k2.nibble (2 * i + 1) :=
        fun he => heqb (BaseUInt.byteAt_eq_iff_nibble.mpr ⟨heq, he⟩)
      exact ⟨by omega, agreeBelow_succ_iff.mpr ⟨hag, heq⟩, fun _ => hlo⟩
    · exact ⟨by omega, hag, fun _ => heq⟩

/-- Two different keys agree below `firstDiffDepth` and differ at it, which is below 64. -/
theorem firstDiffDepth_spec {k1 k2 : UInt256} (hne : k1 ≠ k2) :
    firstDiffDepth k1 k2 < 64 ∧ AgreeBelow (firstDiffDepth k1 k2) k1.nibble k2.nibble ∧
      k1.nibble (firstDiffDepth k1 k2) ≠ k2.nibble (firstDiffDepth k1 k2) := by
  obtain ⟨hle, hag, hdiff⟩ :=
    firstDiffDepth_loop_spec k1 k2 hne 32 0 (by omega) (AgreeBelow.zero _ _)
  have hlt : firstDiffDepth k1 k2 < 64 := by
    rcases Nat.lt_or_eq_of_le hle with h | h
    · exact h
    · have h64 : 2 * 32 = firstDiffDepth k1 k2 := h.symm
      exact absurd (BaseUInt.eq_of_nibble (h64 ▸ hag)) hne
  exact ⟨hlt, hag, hdiff hlt⟩

end Ripple
