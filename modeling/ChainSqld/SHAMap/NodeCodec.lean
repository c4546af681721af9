import ChainSqld.SHAMap.TreeNode
import ChainSqld.Lib.Records

/-!
# The node codec

`SHAMapAbstractNode::make` rebuilds a node from bytes that `addRaw` wrote, in the prefix format (a
four-byte `HashPrefix` naming the kind of node, then the bytes its hash is taken of) or the wire
format (a trailing type byte; an inner node with fewer than twelve branches is compressed to its
branches, each hash followed by its slot). Both work on the fields of a node object other than its
children: an inner node's branch mask `mIsBranch` and slot hashes `mHashes`, a v2 inner node's
`depth_` and `common_` as well, a leaf's item and type. `StoredNode` is a node with those fields;
`make` is modelled with `hashValid` false, so the hash is always recomputed from them.

- the offset readers of a `Serializer` that `make` uses: `get256`, `get8`, `chop`;
- `StoredNode.addRaw` and `getNodeHash`, and `make` with every error it throws;
- `SHAMapAbstractNode.toStored`, the fields of a node of the tree, which hash as the node does
  (`getNodeHash_toStored`);
- the round trip: a node whose fields agree with what `make` derives (`StoredNode.Valid`) is read
  back from its own bytes in both formats (`makePrefix_prefixBytes`, `makeWire_wireBytes`). A
  transaction-with-metadata leaf keyed zero is refused by the wire format ("invalid TM node"), while
  the prefix format, which has no such check, reads it back.
-/

namespace Ripple

open Serializer

/-! ## Reading a serializer at an offset -/

namespace Serializer

/-- `Serializer::get256 (o, offset)`: the 32 bytes at `offset`, if there are that many. -/
def get256 (s : Blob) (offset : Nat) : Option UInt256 :=
  if h : offset + 32 ≤ s.length then
    some ⟨(s.drop offset).take 32, by rw [List.length_take, List.length_drop]; omega⟩
  else none

/-- `Serializer::get8 (byte, offset)`. -/
def get8 (s : Blob) (offset : Nat) : Option UInt8 := s[offset]?

/-- `Serializer::chop (bytes)`: the data without its last `bytes` bytes. -/
def chop (s : Blob) (bytes : Nat) : Blob := s.take (s.length - bytes)

theorem get256_of_drop_eq {s rest : Blob} {offset : Nat} {x : UInt256}
    (h : s.drop offset = addBitString x ++ rest) : get256 s offset = some x := by
  have hlen : offset + 32 ≤ s.length := by
    have := congrArg List.length h
    rw [List.length_drop, List.length_append, length_addBitString] at this
    omega
  obtain ⟨d, hd⟩ := x
  simp only [get256, dif_pos hlen, h, addBitString, Option.some.injEq, BaseUInt.mk.injEq]
  rw [← hd, List.take_left]

theorem get8_of_drop_eq {s rest : Blob} {offset : Nat} {b : UInt8} (h : s.drop offset = b :: rest) :
    get8 s offset = some b := by
  have := congrArg (·[0]?) h
  simpa [get8, List.getElem?_drop] using this

/-- The key at the end of a leaf's bytes. -/
theorem get256_append_addBitString (a : Blob) (x : UInt256) :
    get256 (a ++ addBitString x) a.length = some x :=
  @get256_of_drop_eq _ [] _ _ (by rw [List.drop_left, List.append_nil])

@[simp] theorem chop_append (a b : Blob) : chop (a ++ b) b.length = a := by
  simp [chop]

theorem chop_append_addBitString (a : Blob) (x : UInt256) : chop (a ++ addBitString x) 32 = a := by
  simpa using chop_append a (addBitString x)

end Serializer

/-! ## Stored nodes and their bytes -/

/-- A node as `make` builds it and `addRaw` writes it: the fields of `SHAMapInnerNode`
(`mIsBranch`, `mHashes`), of `SHAMapInnerNodeV2` (`depth_` and `common_` as well) or of
`SHAMapTreeNode` (`mItem`, `mType`), without the children and the cached hash. -/
inductive StoredNode where
  | inner (mIsBranch : Fin 16 → Bool) (mHashes : Fin 16 → UInt256)
  | innerV2 (mIsBranch : Fin 16 → Bool) (mHashes : Fin 16 → UInt256) (depth : Nat) (common : UInt256)
  | leaf (item : SHAMapItem) (type : TNType)

namespace StoredNode

/-- The branches in slot order, the slots whose `mIsBranch` bit is set. -/
def branchList (mIsBranch : Fin 16 → Bool) : List (Fin 16) := (List.finRange 16).filter mIsBranch

/-- The sixteen slot hashes, the body of a full inner node. -/
def hashBytes (mHashes : Fin 16 → UInt256) : Blob :=
  (List.finRange 16).flatMap fun i => addBitString (mHashes i)

/-- One entry of a compressed inner node: the hash of a branch, then its slot. -/
def entryBytes (mHashes : Fin 16 → UInt256) (i : Fin 16) : Blob :=
  addBitString (mHashes i) ++ add8 i.val.toUInt8

/-- `SHAMapInnerNode::addRaw` in `snfWIRE`: with fewer than twelve branches (`getBranchCount`)
the entry of each branch, then type byte 3; otherwise all sixteen hashes, then type byte 2.
`SHAMapInnerNodeV2::addRaw` adds 3 to that last byte, which is `bump`. -/
def innerWireBytes (mIsBranch : Fin 16 → Bool) (mHashes : Fin 16 → UInt256) (bump : UInt8) : Blob :=
  if (branchList mIsBranch).length < 12 then
    (branchList mIsBranch).flatMap (entryBytes mHashes) ++ add8 (3 + bump)
  else hashBytes mHashes ++ add8 (2 + bump)

/-- What `SHAMapInnerNodeV2::addRaw` writes after the hashes in `snfPREFIX`: the depth in one byte,
then the first `(depth + 1) / 2` bytes of the common prefix. -/
def depthBytes (depth : Nat) (common : UInt256) : Blob :=
  add8 depth.toUInt8 ++ (List.range ((depth + 1) / 2)).flatMap fun i => add8 (common.byteAt i)

/-- `addRaw` in `snfPREFIX`. A leaf whose type is not a leaf type writes nothing (the code
asserts). -/
def prefixBytes : StoredNode → Blob
  | inner _ mHashes => add32 HashPrefix.innerNode ++ hashBytes mHashes
  | innerV2 _ mHashes depth common =>
    add32 HashPrefix.innerNodeV2 ++ hashBytes mHashes ++ depthBytes depth common
  | leaf it .tnACCOUNT_STATE =>
    add32 HashPrefix.leafNode ++ Serializer.addRaw it.data ++ addBitString it.tag
  | leaf it .tnTRANSACTION_NM => add32 HashPrefix.transactionID ++ Serializer.addRaw it.data
  | leaf it .tnTRANSACTION_MD =>
    add32 HashPrefix.txNode ++ Serializer.addRaw it.data ++ addBitString it.tag
  | leaf _ _ => []

/-- `addRaw` in `snfWIRE`: a leaf's data, its key unless it is a transaction without metadata,
and a trailing type byte. -/
def wireBytes : StoredNode → Blob
  | inner mIsBranch mHashes => innerWireBytes mIsBranch mHashes 0
  | innerV2 mIsBranch mHashes _ _ => innerWireBytes mIsBranch mHashes 3
  | leaf it .tnACCOUNT_STATE => Serializer.addRaw it.data ++ addBitString it.tag ++ add8 1
  | leaf it .tnTRANSACTION_NM => Serializer.addRaw it.data ++ add8 0
  | leaf it .tnTRANSACTION_MD => Serializer.addRaw it.data ++ addBitString it.tag ++ add8 4
  | leaf _ _ => []

section Hash

variable (sha512Half : Blob → UInt256)

/-- The hash `updateHash` computes from the fields: for an inner node zero while no `mIsBranch`
bit is set, otherwise `sha512Half` of its prefix-format bytes; for a leaf those bytes' hash. -/
def getNodeHash : StoredNode → UInt256
  | inner mIsBranch mHashes =>
    if (List.finRange 16).any mIsBranch then sha512Half (inner mIsBranch mHashes).prefixBytes
    else BaseUInt.zero 32
  | innerV2 mIsBranch mHashes depth common =>
    if (List.finRange 16).any mIsBranch then
      sha512Half (innerV2 mIsBranch mHashes depth common).prefixBytes
    else BaseUInt.zero 32
  | leaf it ty => if ty.isLeafType then sha512Half (leaf it ty).prefixBytes else BaseUInt.zero 32

/-- `addRaw`: the hash alone, or the bytes of the prefix or the wire format. -/
def addRaw (n : StoredNode) : SHANodeFormat → Blob
  | .snfHASH => addBitString (n.getNodeHash sha512Half)
  | .snfPREFIX => n.prefixBytes
  | .snfWIRE => n.wireBytes

end Hash

/-! ## Reading a node -/

/-- The slot hashes of a full inner node, hash `i` at byte `i * 32`, with a branch where one is
non-zero. -/
def fullInner (s : Blob) : (Fin 16 → Bool) × (Fin 16 → UInt256) :=
  let mHashes := fun i : Fin 16 => (get256 s (i.val * 32)).getD (BaseUInt.zero 32)
  (fun i => !(mHashes i).isZero, mHashes)

/-- Entry `i` of a compressed inner node: its slot is the byte after its hash ("short CI node" if
there is none, "invalid CI node" past 15), and the hash at byte `i * 33` goes into that slot,
setting the slot's branch bit if it is non-zero. -/
def compressedStep (s : Blob) (acc : (Fin 16 → Bool) × (Fin 16 → UInt256)) (i : Nat) :
    Except String ((Fin 16 → Bool) × (Fin 16 → UInt256)) :=
  match get8 s (32 + i * 33) with
  | none => .error "short CI node"
  | some pos =>
    if h : pos.toNat < 16 then
      let slot : Fin 16 := ⟨pos.toNat, h⟩
      let hash := (get256 s (i * 33)).getD (acc.2 slot)
      .ok (if hash.isZero then acc.1 else Function.update acc.1 slot true,
        Function.update acc.2 slot hash)
    else .error "invalid CI node"

/-- A compressed inner node: one entry for each whole 33 bytes, read into a node without
branches. -/
def compressedInner (s : Blob) : Except String ((Fin 16 → Bool) × (Fin 16 → UInt256)) :=
  (List.range (s.length / 33)).foldlM (compressedStep s) (fun _ => false, fun _ => BaseUInt.zero 32)

/-- A leaf whose key ends its bytes (`get256 (u, len - 32)`, then `chop (32)`): `short` with fewer
than 32 bytes, `invalid` when the key is zero. -/
def keyedLeaf (s : Blob) (short invalid : String) (type : TNType) : Except String StoredNode :=
  if s.length < 32 then .error short
  else
    let u := (get256 s (s.length - 32)).getD (BaseUInt.zero 32)
    if u.isZero then .error invalid else .ok (leaf ⟨u, chop s 32⟩ type)

/-- The common prefix of a v2 inner node read from the `n` bytes after its depth byte: `common_`
starts at zero, and bytes past its 32 are dropped (the code writes them past the array). -/
def readCommon (s : Blob) (n : Nat) : UInt256 :=
  ⟨((List.range n).map (fun i => (get8 s (513 + i)).getD 0) ++ List.replicate 32 0).take 32, by simp⟩

section Make

variable (sha512Half : Blob → UInt256)

/-- `SHAMapAbstractNode::make` in `snfWIRE`: the last byte is the type, the bytes before it the
body. The empty string and an unknown type give a null pointer, `none`; a v2 inner node takes its
depth and common prefix from the node ID `id` it was asked for. -/
def makeWire (rawNode : Blob) (id : SHAMapNodeID) : Except String (Option StoredNode) :=
  match rawNode.getLast? with
  | none => .ok none
  | some type =>
    let s := rawNode.dropLast
    match type.toNat with
    | 0 => .ok (some (leaf ⟨sha512Half (add32 HashPrefix.transactionID ++ s), s⟩ .tnTRANSACTION_NM))
    | 1 => (keyedLeaf s "short AS node" "invalid AS node" .tnACCOUNT_STATE).map some
    | 2 =>
      if s.length ≠ 512 then .error "invalid FI node"
      else .ok (some (inner (fullInner s).1 (fullInner s).2))
    | 3 => (compressedInner s).map fun r => some (inner r.1 r.2)
    | 4 => (keyedLeaf s "short TM node" "invalid TM node" .tnTRANSACTION_MD).map some
    | 5 =>
      if s.length ≠ 512 then .error "invalid FI node"
      else .ok (some (innerV2 (fullInner s).1 (fullInner s).2 id.mDepth id.mNodeID))
    | 6 => (compressedInner s).map fun r => some (innerV2 r.1 r.2 id.mDepth id.mNodeID)
    | _ => .ok none

/-- `SHAMapAbstractNode::make` in `snfPREFIX`: the first four bytes are the `HashPrefix` that
names the kind of node ("invalid P node" without them, "invalid node prefix" for an unknown one),
the bytes after them the body. A v2 inner node's body is its hashes, its depth byte, and as many
bytes of its common prefix as the depth needs. -/
def makePrefix (rawNode : Blob) : Except String StoredNode :=
  match SerialIter.get32.run rawNode with
  | .error _ => .error "invalid P node"
  | .ok (hashPrefix, s) =>
    if hashPrefix = HashPrefix.transactionID then
      .ok (leaf ⟨sha512Half rawNode, s⟩ .tnTRANSACTION_NM)
    else if hashPrefix = HashPrefix.leafNode then
      keyedLeaf s "short PLN node" "invalid PLN node" .tnACCOUNT_STATE
    else if hashPrefix = HashPrefix.innerNode ∨ hashPrefix = HashPrefix.innerNodeV2 then
      let isV2 := hashPrefix == HashPrefix.innerNodeV2
      let len := s.length
      if len < 512 || (!isV2 && len != 512) || (isV2 && len == 512) then .error "invalid PIN node"
      else if isV2 then
        -- `depth_` starts at 64; the byte is there, since the length is past 512
        let depth := ((get8 s 512).getD 64).toNat
        let n := (depth + 1) / 2
        if len ≠ 512 + 1 + n then .error "invalid PIN node"
        else .ok (innerV2 (fullInner s).1 (fullInner s).2 depth (readCommon s n))
      else .ok (inner (fullInner s).1 (fullInner s).2)
    else if hashPrefix = HashPrefix.txNode then
      if s.length < 32 then .error "short TXN node"
      else .ok (leaf ⟨(get256 s (s.length - 32)).getD (BaseUInt.zero 32), chop s 32⟩ .tnTRANSACTION_MD)
    else .error "invalid node prefix"

/-- `SHAMapAbstractNode::make` with `hashValid` false; `snfHASH` carries no node. -/
def make (rawNode : Blob) (format : SHANodeFormat) (id : SHAMapNodeID) :
    Except String (Option StoredNode) :=
  match format with
  | .snfWIRE => makeWire sha512Half rawNode id
  | .snfPREFIX => (makePrefix sha512Half rawNode).map some
  | .snfHASH => .error "Unknown format"

end Make

/-! ## Bytes of the parts -/

@[simp] theorem mem_branchList {mIsBranch : Fin 16 → Bool} {i : Fin 16} :
    i ∈ branchList mIsBranch ↔ mIsBranch i = true := by
  simp [branchList]

theorem length_hashBytes (mHashes : Fin 16 → UInt256) : (hashBytes mHashes).length = 512 := by
  rw [hashBytes, Records.length_flatMap_of_length _ _ fun i _ => length_addBitString (mHashes i)]
  simp

theorem length_entryBytes (mHashes : Fin 16 → UInt256) (i : Fin 16) : (entryBytes mHashes i).length = 33 := by
  simp [entryBytes, add8]

theorem length_depthBytes (depth : Nat) (common : UInt256) :
    (depthBytes depth common).length = (depth + 1) / 2 + 1 := by
  simp [depthBytes, add8]

/-- Hash `i` of a full inner node is read from byte `i * 32`, whatever follows the hashes. -/
theorem get256_hashBytes (mHashes : Fin 16 → UInt256) (rest : Blob) (i : Fin 16) :
    get256 (hashBytes mHashes ++ rest) (i.val * 32) = some (mHashes i) := by
  have hi : i.val < (List.finRange 16).length := by simp
  apply @get256_of_drop_eq _ (((List.finRange 16).drop (i.val + 1)).flatMap (fun j => addBitString (mHashes j)) ++ rest)
  rw [List.drop_append_of_le_length (by rw [length_hashBytes]; omega), hashBytes,
    Records.drop_flatMap_getElem _ (fun j _ => length_addBitString (mHashes j)) hi, List.getElem_finRange]
  simp

/-- The hashes of a full inner node read back, each non-zero one as a branch. -/
theorem fullInner_hashBytes (mHashes : Fin 16 → UInt256) (rest : Blob) :
    fullInner (hashBytes mHashes ++ rest) = (fun i => !(mHashes i).isZero, mHashes) := by
  have hget : ∀ i : Fin 16, (get256 (hashBytes mHashes ++ rest) (i.val * 32)).getD (BaseUInt.zero 32) = mHashes i :=
    fun i => by rw [get256_hashBytes]; rfl
  simp only [fullInner, hget]

section Compressed

variable {mIsBranch : Fin 16 → Bool} {mHashes : Fin 16 → UInt256}

/-- Entry `i` of a compressed inner node names the `i`-th branch and carries its hash. -/
theorem compressedStep_entries (hv : ∀ i, mIsBranch i = !(mHashes i).isZero)
    (acc : (Fin 16 → Bool) × (Fin 16 → UInt256)) {i : Nat} (hi : i < (branchList mIsBranch).length) :
    compressedStep ((branchList mIsBranch).flatMap (entryBytes mHashes)) acc i =
      .ok (Function.update acc.1 ((branchList mIsBranch).getD i 0) true,
        Function.update acc.2 ((branchList mIsBranch).getD i 0) (mHashes ((branchList mIsBranch).getD i 0))) := by
  set L := branchList mIsBranch
  have hp : L.getD i 0 = L[i] := by simp [List.getD_eq_getElem?_getD, List.getElem?_eq_getElem hi]
  -- entry `i` starts `i * 33` into the bytes: its hash, its slot, then the entries after it
  have hdrop := Records.drop_flatMap_getElem (entryBytes mHashes) (fun j _ => length_entryBytes mHashes j) hi
  have hslot : get8 (L.flatMap (entryBytes mHashes)) (32 + i * 33) = some L[i].val.toUInt8 := by
    apply @get8_of_drop_eq _ ((L.drop (i + 1)).flatMap (entryBytes mHashes))
    rw [Nat.add_comm, ← List.drop_drop, hdrop, entryBytes, List.append_assoc,
      List.drop_left' (length_addBitString _)]
    rfl
  have hhash : get256 (L.flatMap (entryBytes mHashes)) (i * 33) = some (mHashes L[i]) := by
    apply @get256_of_drop_eq _ (add8 L[i].val.toUInt8 ++ (L.drop (i + 1)).flatMap (entryBytes mHashes))
    rw [hdrop, entryBytes, List.append_assoc]
  have hval : L[i].val.toUInt8.toNat = L[i].val := by
    have := L[i].isLt
    simp only [Nat.toUInt8_eq, UInt8.toNat_ofNat', Nat.mod_eq_of_lt (by omega : L[i].val < 256)]
  have hlt : L[i].val.toUInt8.toNat < 16 := by rw [hval]; exact L[i].isLt
  have hslot' : (⟨L[i].val.toUInt8.toNat, hlt⟩ : Fin 16) = L[i] := Fin.ext hval
  -- a listed slot is a branch, so its hash is non-zero
  have hnz : (mHashes L[i]).isZero = false := by
    have hb := mem_branchList.mp (List.getElem_mem hi)
    rw [hv] at hb
    simpa using hb
  simp only [compressedStep, hslot, dif_pos hlt, hslot', hhash, Option.getD_some, hnz, hp]
  rfl

/-- The entries of a compressed inner node read back as its branch mask and hashes. -/
theorem compressedInner_entries (hv : ∀ i, mIsBranch i = !(mHashes i).isZero) :
    compressedInner ((branchList mIsBranch).flatMap (entryBytes mHashes)) = .ok (mIsBranch, mHashes) := by
  set L := branchList mIsBranch
  have hlen : (L.flatMap (entryBytes mHashes)).length / 33 = L.length := by
    rw [Records.length_flatMap_of_length _ _ fun j _ => length_entryBytes mHashes j]
    simp
  -- entry `i` updates the slot of the `i`-th branch
  let g := fun (acc : (Fin 16 → Bool) × (Fin 16 → UInt256)) (p : Fin 16) =>
    (Function.update acc.1 p true, Function.update acc.2 p (mHashes p))
  have hstep : ∀ acc, ∀ i ∈ List.range L.length,
      compressedStep (L.flatMap (entryBytes mHashes)) acc i = .ok (g acc (L.getD i 0)) :=
    fun acc i hi => compressedStep_entries hv acc (List.mem_range.mp hi)
  rw [compressedInner, hlen, Except.foldlM_eq_ok hstep, Records.foldl_range_getD g 0 L,
    Records.foldl_prodMk (fun f p => Function.update f p true) (fun f p => Function.update f p (mHashes p))]
  congr 1
  -- each slot is a branch exactly when it is listed, and a slot not listed has hash zero
  refine Prod.ext (funext fun p => ?_) (funext fun p => ?_) <;> dsimp only
  · rw [Records.foldl_update_apply (fun _ => true)]
    by_cases hp : mIsBranch p <;> simp [L, hp]
  · rw [Records.foldl_update_apply mHashes]
    by_cases hp : mIsBranch p
    · simp [L, hp]
    · have hz : (mHashes p).isZero = true := by simpa [hv] using hp
      simp [L, hp, (BaseUInt.isZero_iff _).mp hz]

end Compressed

/-! ## Leaves -/

theorem isZero_eq_false_of_ne {key : UInt256} (hk : key ≠ BaseUInt.zero 32) : key.isZero = false := by
  rw [Bool.eq_false_iff]
  exact fun h => hk ((BaseUInt.isZero_iff key).mp h)

theorem get256_leafKey (data : Blob) (key : UInt256) :
    get256 (data ++ addBitString key) ((data ++ addBitString key).length - 32) = some key := by
  have hlen : (data ++ addBitString key).length - 32 = data.length := by simp
  rw [hlen, get256_append_addBitString]

/-- A leaf's data followed by a non-zero key reads back as that leaf. -/
theorem keyedLeaf_append (data : Blob) {key : UInt256} (hk : key ≠ BaseUInt.zero 32) (short invalid : String)
    (type : TNType) : keyedLeaf (data ++ addBitString key) short invalid type = .ok (leaf ⟨key, data⟩ type) := by
  rw [keyedLeaf, if_neg (by simp)]
  simp only [get256_leafKey, Option.getD_some, isZero_eq_false_of_ne hk, Bool.false_eq_true, if_false,
    chop_append_addBitString]

/-- A leaf keyed zero is refused with the message `invalid`. -/
theorem keyedLeaf_append_zero (data : Blob) (short invalid : String) (type : TNType) :
    keyedLeaf (data ++ addBitString (BaseUInt.zero 32)) short invalid type = .error invalid := by
  rw [keyedLeaf, if_neg (by simp)]
  have hz : (BaseUInt.zero 32).isZero = true := (BaseUInt.isZero_iff _).mpr rfl
  simp only [get256_leafKey, Option.getD_some, hz, if_true]

/-! ## The round trip -/

section RoundTrip

variable (sha512Half : Blob → UInt256)

/-- The nodes whose fields agree with what `make` derives from their bytes: a slot is a branch
exactly when its hash is non-zero; a v2 inner node is no deeper than a key and its common prefix
is its first `depth` nibbles; a leaf has a leaf type and a non-zero key, and a transaction without
metadata is keyed by the hash of its data. -/
def Valid : StoredNode → Prop
  | inner mIsBranch mHashes => ∀ i, mIsBranch i = !(mHashes i).isZero
  | innerV2 mIsBranch mHashes depth common =>
    (∀ i, mIsBranch i = !(mHashes i).isZero) ∧ depth ≤ 64 ∧ keyPrefix depth common = common
  | leaf it .tnTRANSACTION_NM => it.tag = sha512Half (add32 HashPrefix.transactionID ++ it.data)
  | leaf it .tnACCOUNT_STATE => it.tag ≠ BaseUInt.zero 32
  | leaf it .tnTRANSACTION_MD => it.tag ≠ BaseUInt.zero 32
  | leaf _ _ => False

instance (n : StoredNode) : Decidable (n.Valid sha512Half) :=
  match n with
  | inner mIsBranch mHashes => inferInstanceAs (Decidable (∀ i, mIsBranch i = !(mHashes i).isZero))
  | innerV2 mIsBranch mHashes depth common =>
    inferInstanceAs (Decidable ((∀ i, mIsBranch i = !(mHashes i).isZero) ∧ depth ≤ 64 ∧
      keyPrefix depth common = common))
  | leaf it .tnTRANSACTION_NM =>
    inferInstanceAs (Decidable (it.tag = sha512Half (add32 HashPrefix.transactionID ++ it.data)))
  | leaf it .tnACCOUNT_STATE => inferInstanceAs (Decidable (it.tag ≠ BaseUInt.zero 32))
  | leaf it .tnTRANSACTION_MD => inferInstanceAs (Decidable (it.tag ≠ BaseUInt.zero 32))
  | leaf _ .tnERROR => isFalse id
  | leaf _ .tnINNER => isFalse id

/-- `id` is where the node sits, as far as its wire bytes need: a v2 inner node is read at its own
depth and common prefix, which its wire bytes do not carry. -/
def AtNodeID : StoredNode → SHAMapNodeID → Prop
  | innerV2 _ _ depth common, id => id = ⟨depth, common⟩
  | _, _ => True

/-- An inner node's wire bytes, full or compressed, read back as its mask and hashes; the v2 type
bytes give a v2 node at the position asked for. -/
theorem makeWire_innerWireBytes {mIsBranch : Fin 16 → Bool} {mHashes : Fin 16 → UInt256}
    (hv : ∀ i, mIsBranch i = !(mHashes i).isZero) (id : SHAMapNodeID) :
    makeWire sha512Half (innerWireBytes mIsBranch mHashes 0) id = .ok (some (inner mIsBranch mHashes)) ∧
      makeWire sha512Half (innerWireBytes mIsBranch mHashes 3) id =
        .ok (some (innerV2 mIsBranch mHashes id.mDepth id.mNodeID)) := by
  unfold innerWireBytes
  split_ifs with hc
  · -- compressed: type bytes 3 and 6
    simp only [makeWire, add8, List.getLast?_concat, List.dropLast_concat, compressedInner_entries hv]
    exact ⟨rfl, rfl⟩
  · -- full: type bytes 2 and 5
    have hfull := fullInner_hashBytes mHashes []
    rw [List.append_nil] at hfull
    have hmask : (fun i => !(mHashes i).isZero) = mIsBranch := funext fun i => (hv i).symm
    simp only [makeWire, add8, List.getLast?_concat, List.dropLast_concat, length_hashBytes, hfull, hmask]
    exact ⟨rfl, rfl⟩

/-- A node whose fields are valid is read back from its wire bytes at its own position. -/
theorem makeWire_wireBytes {n : StoredNode} (hn : n.Valid sha512Half) {id : SHAMapNodeID}
    (hid : n.AtNodeID id) : makeWire sha512Half n.wireBytes id = .ok (some n) := by
  cases n with
  | inner mIsBranch mHashes => exact (makeWire_innerWireBytes sha512Half hn id).1
  | innerV2 mIsBranch mHashes depth common =>
    obtain ⟨hv, -, -⟩ := hn
    subst hid
    exact (makeWire_innerWireBytes sha512Half hv _).2
  | leaf it type =>
    obtain ⟨tag, data⟩ := it
    cases type with
    | tnERROR => exact hn.elim
    | tnINNER => exact hn.elim
    | tnTRANSACTION_NM =>
      -- the key is not sent: it is the hash of the data
      simp only [wireBytes, Serializer.addRaw, add8, makeWire, List.getLast?_concat, List.dropLast_concat]
      rw [← show tag = _ from hn]
      rfl
    | tnACCOUNT_STATE =>
      simp only [wireBytes, Serializer.addRaw, add8, makeWire, List.getLast?_concat, List.dropLast_concat,
        keyedLeaf_append data hn]
      rfl
    | tnTRANSACTION_MD =>
      simp only [wireBytes, Serializer.addRaw, add8, makeWire, List.getLast?_concat, List.dropLast_concat,
        keyedLeaf_append data hn]
      rfl

/-! ### The prefix format -/

/-- A common prefix cut at its depth has zero bytes past the `(depth + 1) / 2` it is written in. -/
theorem byteAt_eq_zero_of_keyPrefix {depth : Nat} {common : UInt256} (hc : keyPrefix depth common = common)
    {j : Nat} (hj : (depth + 1) / 2 ≤ j) : common.byteAt j = 0 := by
  rw [← hc, byteAt_keyPrefix, if_neg (by omega), if_neg (by omega)]

/-- The depth byte follows the hashes. -/
theorem get8_depthBytes (mHashes : Fin 16 → UInt256) (depth : Nat) (common : UInt256) :
    get8 (hashBytes mHashes ++ depthBytes depth common) 512 = some depth.toUInt8 := by
  apply @get8_of_drop_eq _ ((List.range ((depth + 1) / 2)).flatMap fun i => add8 (common.byteAt i))
  rw [List.drop_left' (length_hashBytes mHashes)]
  rfl

/-- The bytes of the common prefix read back as the prefix, once it is cut at its depth. -/
theorem readCommon_depthBytes (mHashes : Fin 16 → UInt256) {depth : Nat} {common : UInt256}
    (hc : keyPrefix depth common = common) :
    readCommon (hashBytes mHashes ++ depthBytes depth common) ((depth + 1) / 2) = common := by
  set n := (depth + 1) / 2
  -- byte `i` of the prefix stands `513 + i` into the body
  have hget : ∀ i ∈ List.range n,
      (get8 (hashBytes mHashes ++ depthBytes depth common) (513 + i)).getD 0 = common.byteAt i := by
    intro i hi
    have hi' : i < (depth + 1) / 2 := List.mem_range.mp hi
    rw [get8, List.getElem?_append_right (by rw [length_hashBytes]; omega), length_hashBytes, depthBytes]
    simp only [add8, ← List.map_eq_flatMap, show 513 + i - 512 = i + 1 by omega]
    simp [hi']
  have hmap := List.map_congr_left hget
  apply BaseUInt.eq_of_byteAt
  intro j hj
  show (List.take 32 (_ ++ List.replicate 32 0)).getD j 0 = common.byteAt j
  rw [hmap]
  by_cases hjn : j < n
  · simp [List.getD_eq_getElem?_getD, hj, hjn]
  · rw [byteAt_eq_zero_of_keyPrefix hc (by omega), List.getD_eq_getElem?_getD, List.getElem?_take, if_pos hj,
      List.getElem?_append_right (by simp; omega), List.getElem?_replicate]
    split <;> rfl

/-- A node whose fields are valid is read back from its prefix-format bytes. -/
theorem makePrefix_prefixBytes {n : StoredNode} (hn : n.Valid sha512Half) :
    makePrefix sha512Half n.prefixBytes = .ok n := by
  cases n with
  | inner mIsBranch mHashes =>
    have hfull := fullInner_hashBytes mHashes []
    rw [List.append_nil] at hfull
    have hmask : (fun i => !(mHashes i).isZero) = mIsBranch := funext fun i => (hn i).symm
    rw [prefixBytes, makePrefix, get32_add32]
    simp +decide only [length_hashBytes, hfull, hmask, ↓reduceIte]
  | innerV2 mIsBranch mHashes depth common =>
    obtain ⟨hv, hd, hc⟩ := hn
    have hfull := fullInner_hashBytes mHashes (depthBytes depth common)
    have hmask : (fun i => !(mHashes i).isZero) = mIsBranch := funext fun i => (hv i).symm
    have hdepth : depth.toUInt8.toNat = depth := by
      simp only [Nat.toUInt8_eq, UInt8.toNat_ofNat', Nat.mod_eq_of_lt (by omega : depth < 256)]
    -- the body is longer than 512 bytes by the depth byte and the prefix bytes, exactly
    have hlen : (hashBytes mHashes ++ depthBytes depth common).length = 512 + 1 + (depth + 1) / 2 := by
      rw [List.length_append, length_hashBytes, length_depthBytes]
      omega
    rw [prefixBytes, List.append_assoc, makePrefix, get32_add32]
    have hshort : ¬ 512 + 1 + (depth + 1) / 2 < 512 := by omega
    have hfull512 : (512 + 1 + (depth + 1) / 2 == 512) = false := beq_false_of_ne (by omega)
    simp +decide only [hlen, hfull, hmask, get8_depthBytes, Option.getD_some, hdepth, readCommon_depthBytes mHashes hc,
      hshort, hfull512, beq_self_eq_true, decide_false, Bool.not_true, Bool.false_and, Bool.and_false,
      Bool.or_false, Bool.false_eq_true, ne_eq, not_true_eq_false, ↓reduceIte]
  | leaf it type =>
    obtain ⟨tag, data⟩ := it
    cases type with
    | tnERROR => exact hn.elim
    | tnINNER => exact hn.elim
    | tnTRANSACTION_NM =>
      -- the key is the hash of the whole bytes, prefix included
      rw [prefixBytes, makePrefix, Serializer.addRaw, get32_add32]
      simp +decide only [↓reduceIte]
      rw [← show tag = _ from hn]
    | tnACCOUNT_STATE =>
      rw [prefixBytes, List.append_assoc, makePrefix, Serializer.addRaw, get32_add32]
      simp +decide only [keyedLeaf_append data hn, ↓reduceIte]
    | tnTRANSACTION_MD =>
      have hlen : ¬ (data ++ addBitString tag).length < 32 := by simp
      rw [prefixBytes, List.append_assoc, makePrefix, Serializer.addRaw, get32_add32]
      simp +decide only [hlen, get256_leafKey, Option.getD_some, chop_append_addBitString, ↓reduceIte]

/-- The codec round trip: a node whose fields are valid is read back by `make` from what `addRaw`
writes, in the prefix format and, at its own position, in the wire format; so it keeps its kind,
its branches and hashes or its item, and its hash. -/
theorem make_addRaw {n : StoredNode} (hn : n.Valid sha512Half) {id : SHAMapNodeID} (hid : n.AtNodeID id)
    {format : SHANodeFormat} (hf : format ≠ .snfHASH) :
    make sha512Half (n.addRaw sha512Half format) format id = .ok (some n) := by
  cases format with
  | snfPREFIX =>
    rw [make, addRaw, makePrefix_prefixBytes sha512Half hn]
    rfl
  | snfWIRE => exact makeWire_wireBytes sha512Half hn hid
  | snfHASH => exact absurd rfl hf

theorem make_addRaw_accountState :
    (leaf ⟨⟨List.replicate 32 1, List.length_replicate⟩, [7]⟩ .tnACCOUNT_STATE).Valid (fun _ => BaseUInt.zero 32) ∧
      make (fun _ => BaseUInt.zero 32)
          ((leaf ⟨⟨List.replicate 32 1, List.length_replicate⟩, [7]⟩ .tnACCOUNT_STATE).addRaw
            (fun _ => BaseUInt.zero 32) .snfWIRE) .snfWIRE SHAMapNodeID.root =
        .ok (some (leaf ⟨⟨List.replicate 32 1, List.length_replicate⟩, [7]⟩ .tnACCOUNT_STATE)) :=
  ⟨by decide, make_addRaw _ (by decide) (by trivial) (by decide)⟩

/-- A transaction-with-metadata leaf keyed zero, whatever its data: `make` refuses its wire bytes
("invalid TM node") but reads its prefix bytes back. -/
theorem make_zero_key_txNode (data : Blob) (id : SHAMapNodeID) :
    make sha512Half ((leaf ⟨BaseUInt.zero 32, data⟩ .tnTRANSACTION_MD).addRaw sha512Half .snfWIRE) .snfWIRE id =
        .error "invalid TM node" ∧
      make sha512Half ((leaf ⟨BaseUInt.zero 32, data⟩ .tnTRANSACTION_MD).addRaw sha512Half .snfPREFIX)
          .snfPREFIX id = .ok (some (leaf ⟨BaseUInt.zero 32, data⟩ .tnTRANSACTION_MD)) := by
  constructor
  · simp only [make, addRaw, wireBytes, Serializer.addRaw, add8, makeWire, List.getLast?_concat,
      List.dropLast_concat, keyedLeaf_append_zero]
    rfl
  · have hlen : ¬ (data ++ addBitString (BaseUInt.zero 32)).length < 32 := by simp
    rw [make, addRaw, prefixBytes, List.append_assoc, makePrefix, Serializer.addRaw, get32_add32]
    simp +decide only [hlen, get256_leafKey, Option.getD_some, chop_append_addBitString, ↓reduceIte]
    rfl

/-- The transaction-with-metadata leaf keyed zero with the data `[7]`, at the root. -/
theorem make_addRaw_zero_key_txNode :
    make (fun _ => BaseUInt.zero 32) ((leaf ⟨BaseUInt.zero 32, [7]⟩ .tnTRANSACTION_MD).addRaw
        (fun _ => BaseUInt.zero 32) .snfWIRE) .snfWIRE SHAMapNodeID.root = .error "invalid TM node" ∧
      make (fun _ => BaseUInt.zero 32) ((leaf ⟨BaseUInt.zero 32, [7]⟩ .tnTRANSACTION_MD).addRaw
          (fun _ => BaseUInt.zero 32) .snfPREFIX) .snfPREFIX SHAMapNodeID.root =
        .ok (some (leaf ⟨BaseUInt.zero 32, [7]⟩ .tnTRANSACTION_MD)) :=
  make_zero_key_txNode (fun _ => BaseUInt.zero 32) [7] SHAMapNodeID.root

end RoundTrip

/-! ## What `make` returns -/

section Readable

variable (sha512Half : Blob → UInt256)

/-- A node `make` can return: a leaf has a leaf type, and a transaction without metadata is keyed
by the hash of its data. -/
def Readable : StoredNode → Prop
  | leaf it ty =>
    ty.isLeafType = true ∧
      (ty = .tnTRANSACTION_NM → it.tag = sha512Half (add32 HashPrefix.transactionID ++ it.data))
  | _ => True

theorem keyedLeaf_eq_ok {s : Blob} {short invalid : String} {type : TNType} {n : StoredNode}
    (h : keyedLeaf s short invalid type = .ok n) : ∃ it, n = leaf it type := by
  unfold keyedLeaf at h
  dsimp only at h
  split_ifs at h
  cases h
  exact ⟨_, rfl⟩

theorem except_map_eq_ok {α β : Type} {x : Except String α} {f : α → β} {b : β}
    (h : x.map f = .ok b) : ∃ a, x = .ok a ∧ f a = b := by
  cases x with
  | error e => cases h
  | ok a => exact ⟨a, rfl, Except.ok.inj h⟩

/-- Every node read in the wire format is one `make` can return. -/
theorem makeWire_readable {rawNode : Blob} {id : SHAMapNodeID} {n : StoredNode}
    (h : makeWire sha512Half rawNode id = .ok (some n)) : n.Readable sha512Half := by
  unfold makeWire at h
  split at h
  · cases h
  · dsimp only at h
    split at h
    · -- a transaction without metadata, keyed by the hash of its data
      cases h
      exact ⟨rfl, fun _ => rfl⟩
    · obtain ⟨n', hk, hs⟩ := except_map_eq_ok h
      cases hs
      obtain ⟨it, rfl⟩ := keyedLeaf_eq_ok hk
      exact ⟨rfl, fun h => nomatch h⟩
    · split_ifs at h
      cases h
      trivial
    · obtain ⟨r, -, hr⟩ := except_map_eq_ok h
      cases hr
      trivial
    · obtain ⟨n', hk, hs⟩ := except_map_eq_ok h
      cases hs
      obtain ⟨it, rfl⟩ := keyedLeaf_eq_ok hk
      exact ⟨rfl, fun h => nomatch h⟩
    · split_ifs at h
      cases h
      trivial
    · obtain ⟨r, -, hr⟩ := except_map_eq_ok h
      cases hr
      trivial
    · cases h

/-- Every node read in the prefix format is one `make` can return: the key of a transaction without
metadata is the hash of all its bytes, the prefix and its data. -/
theorem makePrefix_readable {rawNode : Blob} {n : StoredNode}
    (h : makePrefix sha512Half rawNode = .ok n) : n.Readable sha512Half := by
  unfold makePrefix at h
  split at h
  · cases h
  · rename_i hashPrefix s hget
    have hraw := get32_eq_ok hget
    dsimp only at h
    split_ifs at h with h1
    · cases h
      subst h1
      exact ⟨rfl, fun _ => by rw [hraw]⟩
    · obtain ⟨it, rfl⟩ := keyedLeaf_eq_ok h
      exact ⟨rfl, fun h => nomatch h⟩
    -- the rest: the two inner nodes, the transaction with metadata, and the errors
    all_goals first
      | cases h; trivial
      | cases h; exact ⟨rfl, fun h => nomatch h⟩

theorem make_readable {rawNode : Blob} {format : SHANodeFormat} {id : SHAMapNodeID} {n : StoredNode}
    (h : make sha512Half rawNode format id = .ok (some n)) : n.Readable sha512Half := by
  cases format with
  | snfWIRE => exact makeWire_readable sha512Half h
  | snfPREFIX =>
    obtain ⟨n', hn, hs⟩ := except_map_eq_ok h
    cases hs
    exact makePrefix_readable sha512Half hn
  | snfHASH => cases h

end Readable

end StoredNode

/-! ## The fields of a node of the tree -/

namespace SHAMapAbstractNode

variable (sha512Half : Blob → UInt256)

/-- The fields of a node of the tree once `updateHashDeep` has run: a slot is a branch when it
holds a node, and holds that node's hash. A slot holding nothing has no fields. -/
def toStored : SHAMapAbstractNode → Option StoredNode
  | empty => none
  | inner ch => some (.inner (fun i => !(ch i).isEmpty) fun i => (ch i).getNodeHash sha512Half)
  | innerV2 d c ch =>
    some (.innerV2 (fun i => !(ch i).isEmpty) (fun i => (ch i).getNodeHash sha512Half) d c)
  | leaf it ty => some (.leaf it ty)

theorem any_not_isEmpty (ch : Fin 16 → SHAMapAbstractNode) :
    ((List.finRange 16).any fun i => !(ch i).isEmpty) = !(List.finRange 16).all fun i => (ch i).isEmpty :=
  List.not_all_eq_any_not.symm

/-- The fields of a node hash as the node does: what `updateHash` computes from `mIsBranch` and
`mHashes` is the hash of the tree below it. -/
theorem getNodeHash_toStored {t : SHAMapAbstractNode} {s : StoredNode} (h : t.toStored sha512Half = some s) :
    s.getNodeHash sha512Half = t.getNodeHash sha512Half := by
  cases t with
  | empty => cases h
  | inner ch =>
    cases h
    rw [StoredNode.getNodeHash, getNodeHash, any_not_isEmpty]
    cases (List.finRange 16).all fun i => (ch i).isEmpty <;> rfl
  | innerV2 d c ch =>
    cases h
    rw [StoredNode.getNodeHash, getNodeHash, any_not_isEmpty]
    cases (List.finRange 16).all fun i => (ch i).isEmpty
    · simp [StoredNode.prefixBytes, StoredNode.hashBytes, StoredNode.depthBytes, prefixBytes]
    · rfl
  | leaf it ty =>
    cases h
    cases ty <;> rfl

end SHAMapAbstractNode

end Ripple
