import ChainSqld.SHAMap.NodeID

/-!
# SHAMap tree nodes

The nodes of `SHAMapTreeNode.h`: inner nodes with sixteen child slots (`SHAMapInnerNode`), the v2
inner nodes that also carry their depth and common prefix (`SHAMapInnerNodeV2`), and leaves holding
an item with its type (`SHAMapTreeNode`). A slot holding no node, a null `shared_ptr`, is `empty`.
The branch mask `mIsBranch` and the cached child hashes `mHashes` are not stored: the mask is read
off the children and every hash is recomputed from them by `getNodeHash`, which takes
`sha512Half` as a parameter.

- the node operations used by the map: `getChild`, `setChild`, `isEmptyBranch`, `getBranchCount`,
  `setCommon` and `setChildren`, with their simp lemmas;
- `getNodeHash` (`updateHash`), of the prefix-format bytes of a node;
- `leaves`, the items below a node in branch order, and how the operations change them.
-/

namespace Ripple

/-- `SHAMapItem`: a key (`tag_`, read through `key()`) and its data. -/
structure SHAMapItem where
  tag : UInt256
  data : Blob
deriving DecidableEq, Repr

/-- `SHAMapTreeNode::TNType`. -/
inductive TNType where
  | tnERROR
  | tnINNER
  | tnTRANSACTION_NM
  | tnTRANSACTION_MD
  | tnACCOUNT_STATE
deriving DecidableEq, Repr

namespace TNType

/-- The leaf types, those from `tnTRANSACTION_NM` on. -/
def isLeafType : TNType → Bool
  | tnTRANSACTION_NM | tnTRANSACTION_MD | tnACCOUNT_STATE => true
  | tnERROR | tnINNER => false

/-- The type `addGiveItem` and `updateGiveItem` give a new leaf. -/
def ofFlags (isTransaction hasMeta : Bool) : TNType :=
  if !isTransaction then tnACCOUNT_STATE else if hasMeta then tnTRANSACTION_MD else tnTRANSACTION_NM

theorem isLeafType_ofFlags (isTransaction hasMeta : Bool) : (ofFlags isTransaction hasMeta).isLeafType := by
  unfold ofFlags
  split_ifs <;> rfl

end TNType

/-- The serialization formats of `SHANodeFormat`. -/
inductive SHANodeFormat where
  | snfPREFIX
  | snfWIRE
  | snfHASH
deriving DecidableEq, Repr

/-! The four-byte domain separators of `HashPrefix.cpp`: three characters and a zero byte. -/

namespace HashPrefix

def transactionID : UInt32 := 0x54584E00
def txNode : UInt32 := 0x534E4400
def leafNode : UInt32 := 0x4D4C4E00
def innerNode : UInt32 := 0x4D494E00
def innerNodeV2 : UInt32 := 0x494E5200

end HashPrefix

/-- A node of the tree, or `empty` for a slot holding no node. -/
inductive SHAMapAbstractNode where
  | empty
  | inner (children : Fin 16 → SHAMapAbstractNode)
  | innerV2 (depth : Nat) (common : UInt256) (children : Fin 16 → SHAMapAbstractNode)
  | leaf (item : SHAMapItem) (type : TNType)

namespace SHAMapAbstractNode

/-- The sixteen empty slots of a new inner node. -/
def noChildren : Fin 16 → SHAMapAbstractNode := fun _ => empty

/-- A null pointer. -/
def isEmpty : SHAMapAbstractNode → Bool
  | empty => true
  | _ => false

def isInner : SHAMapAbstractNode → Bool
  | inner _ | innerV2 _ _ _ => true
  | _ => false

def isLeaf : SHAMapAbstractNode → Bool
  | leaf _ _ => true
  | _ => false

/-- The child in slot `m` (`getChild`, `descendThrow` on a map that holds all its nodes). -/
def getChild : SHAMapAbstractNode → Fin 16 → SHAMapAbstractNode
  | inner ch, m => ch m
  | innerV2 _ _ ch, m => ch m
  | _, _ => empty

def isEmptyBranch (n : SHAMapAbstractNode) (m : Fin 16) : Bool := (n.getChild m).isEmpty

/-- `SHAMapInnerNode::setChild`: the slot is overwritten, and the branch bit follows the child. -/
def setChild : SHAMapAbstractNode → Fin 16 → SHAMapAbstractNode → SHAMapAbstractNode
  | inner ch, m, child => inner (Function.update ch m child)
  | innerV2 d c ch, m, child => innerV2 d c (Function.update ch m child)
  | n, _, _ => n

/-- `SHAMapInnerNode::getBranchCount`. -/
def getBranchCount (n : SHAMapAbstractNode) : Nat :=
  ((List.finRange 16).filter fun i => !n.isEmptyBranch i).length

/-- `SHAMapInnerNodeV2::depth`. -/
def depth : SHAMapAbstractNode → Nat
  | innerV2 d _ _ => d
  | _ => 0

/-- `key()`: the common prefix of a v2 inner node, the item key of a leaf. A v1 inner node throws;
its key is never asked for. -/
def key : SHAMapAbstractNode → UInt256
  | innerV2 _ c _ => c
  | leaf it _ => it.tag
  | _ => BaseUInt.zero 32

/-- `SHAMapInnerNodeV2::set_common`. -/
def setCommon (depth : Nat) (common : UInt256) : SHAMapAbstractNode → SHAMapAbstractNode
  | innerV2 _ _ ch => innerV2 depth common ch
  | n => n

/-- `SHAMapInnerNodeV2::setChildren` on a new node: the depth is where the two keys first differ,
the prefix is the first key cut there, and each leaf goes down its own branch. -/
def setChildren (child1 child2 : SHAMapAbstractNode) : SHAMapAbstractNode :=
  let depth := firstDiffDepth child1.key child2.key
  let b1 := child1.key.nibble depth
  let b2 := child2.key.nibble depth
  innerV2 depth (keyPrefix depth child1.key)
    (Function.update (Function.update noChildren b1 child1) b2 child2)

@[simp] theorem getChild_inner (ch : Fin 16 → SHAMapAbstractNode) (m : Fin 16) :
    (inner ch).getChild m = ch m := rfl

@[simp] theorem getChild_innerV2 (d : Nat) (c : UInt256) (ch : Fin 16 → SHAMapAbstractNode) (m : Fin 16) :
    (innerV2 d c ch).getChild m = ch m := rfl

@[simp] theorem setChild_inner (ch : Fin 16 → SHAMapAbstractNode) (m : Fin 16) (child : SHAMapAbstractNode) :
    (inner ch).setChild m child = inner (Function.update ch m child) := rfl

@[simp] theorem setChild_innerV2 (d : Nat) (c : UInt256) (ch : Fin 16 → SHAMapAbstractNode) (m : Fin 16)
    (child : SHAMapAbstractNode) :
    (innerV2 d c ch).setChild m child = innerV2 d c (Function.update ch m child) := rfl

@[simp] theorem setChild_setChild_self (n : SHAMapAbstractNode) (m : Fin 16) (x y : SHAMapAbstractNode) :
    (n.setChild m x).setChild m y = n.setChild m y := by
  cases n <;> simp [setChild]

@[simp] theorem isEmpty_iff (n : SHAMapAbstractNode) : n.isEmpty = true ↔ n = empty := by
  cases n <;> simp [isEmpty]

theorem isEmpty_eq_false_iff (n : SHAMapAbstractNode) : n.isEmpty = false ↔ n ≠ empty := by
  cases n <;> simp [isEmpty]

/-! ## Branch counts -/

/-- The slots holding a node: the set bits of `mIsBranch`. -/
def branches (n : SHAMapAbstractNode) : Finset (Fin 16) :=
  Finset.univ.filter fun i => (!n.isEmptyBranch i) = true

theorem mem_branches {n : SHAMapAbstractNode} {i : Fin 16} : i ∈ n.branches ↔ n.getChild i ≠ empty := by
  rw [branches, Finset.mem_filter, Bool.not_eq_true', isEmptyBranch, isEmpty_eq_false_iff]
  exact ⟨fun h => h.2, fun h => ⟨Finset.mem_univ i, h⟩⟩

theorem getBranchCount_eq_card (n : SHAMapAbstractNode) : n.getBranchCount = n.branches.card := by
  rw [getBranchCount, branches, Fin.univ_def]
  simp only [Finset.filter, Multiset.filter_coe, Finset.card_mk, Multiset.coe_card, Bool.decide_eq_true]

theorem getBranchCount_eq_zero_iff {n : SHAMapAbstractNode} :
    n.getBranchCount = 0 ↔ ∀ i, n.getChild i = empty := by
  rw [getBranchCount_eq_card, Finset.card_eq_zero, Finset.eq_empty_iff_forall_notMem]
  simp [mem_branches]

theorem getBranchCount_eq_one_iff {n : SHAMapAbstractNode} :
    n.getBranchCount = 1 ↔ ∃ i, n.getChild i ≠ empty ∧ ∀ j, j ≠ i → n.getChild j = empty := by
  rw [getBranchCount_eq_card, Finset.card_eq_one]
  constructor
  · rintro ⟨i, hi⟩
    have hmem : ∀ j, n.getChild j ≠ empty ↔ j = i := fun j => by
      rw [← mem_branches, hi, Finset.mem_singleton]
    exact ⟨i, (hmem i).mpr rfl, fun j hj => not_not.mp fun h => hj ((hmem j).mp h)⟩
  · rintro ⟨i, hi, hj⟩
    refine ⟨i, Finset.ext fun j => ?_⟩
    rw [mem_branches, Finset.mem_singleton]
    exact ⟨fun h => not_not.mp fun hne => h (hj j hne), fun h => h ▸ hi⟩

theorem one_lt_getBranchCount_iff {n : SHAMapAbstractNode} :
    1 < n.getBranchCount ↔ ∃ i j, i ≠ j ∧ n.getChild i ≠ empty ∧ n.getChild j ≠ empty := by
  rw [getBranchCount_eq_card, Finset.one_lt_card]
  simp only [mem_branches]
  constructor
  · rintro ⟨i, hi, j, hj, hij⟩
    exact ⟨i, j, hij, hi, hj⟩
  · rintro ⟨i, j, hij, hi, hj⟩
    exact ⟨i, hi, j, hj, hij⟩

/-- A node whose non-empty slots stay non-empty keeps at least its branch count. -/
theorem getBranchCount_le_of_forall {n n' : SHAMapAbstractNode}
    (h : ∀ i, n.getChild i ≠ empty → n'.getChild i ≠ empty) : n.getBranchCount ≤ n'.getBranchCount := by
  rw [getBranchCount_eq_card, getBranchCount_eq_card]
  exact Finset.card_le_card fun i hi => mem_branches.mpr (h i (mem_branches.mp hi))

/-! ## Leaves -/

/-- The items below a node with their leaf types, in branch order. -/
def leaves : SHAMapAbstractNode → List (SHAMapItem × TNType)
  | empty => []
  | inner ch => (List.finRange 16).flatMap fun i => leaves (ch i)
  | innerV2 _ _ ch => (List.finRange 16).flatMap fun i => leaves (ch i)
  | leaf it ty => [(it, ty)]

@[simp] theorem leaves_empty : leaves empty = [] := rfl

@[simp] theorem leaves_leaf (it : SHAMapItem) (ty : TNType) : leaves (leaf it ty) = [(it, ty)] := rfl

theorem mem_leaves_inner {ch : Fin 16 → SHAMapAbstractNode} {x : SHAMapItem × TNType} :
    x ∈ leaves (inner ch) ↔ ∃ i, x ∈ leaves (ch i) := by
  simp [leaves]

theorem leaves_innerV2 (d : Nat) (c : UInt256) (ch : Fin 16 → SHAMapAbstractNode) :
    (innerV2 d c ch).leaves = (inner ch).leaves := by
  simp [leaves]

theorem mem_leaves_innerV2 {d : Nat} {c : UInt256} {ch : Fin 16 → SHAMapAbstractNode}
    {x : SHAMapItem × TNType} : x ∈ leaves (innerV2 d c ch) ↔ ∃ i, x ∈ leaves (ch i) := by
  simp [leaves]

theorem mem_leaves_of_getChild {t : SHAMapAbstractNode} {i : Fin 16} {x : SHAMapItem × TNType}
    (h : x ∈ (t.getChild i).leaves) : x ∈ t.leaves := by
  cases t with
  | empty => cases h
  | leaf it ty => cases h
  | inner ch => exact mem_leaves_inner.mpr ⟨i, h⟩
  | innerV2 d c ch => exact mem_leaves_innerV2.mpr ⟨i, h⟩

/-- The leaves of a node after one slot is overwritten. -/
theorem mem_leaves_update {ch : Fin 16 → SHAMapAbstractNode} {b : Fin 16} {c : SHAMapAbstractNode}
    {x : SHAMapItem × TNType} :
    (∃ i, x ∈ leaves (Function.update ch b c i)) ↔ x ∈ leaves c ∨ ∃ i, i ≠ b ∧ x ∈ leaves (ch i) := by
  constructor
  · rintro ⟨i, hi⟩
    by_cases hib : i = b
    · subst hib
      exact Or.inl (by simpa using hi)
    · exact Or.inr ⟨i, hib, by simpa [Function.update_of_ne hib] using hi⟩
  · rintro (h | ⟨i, hib, hi⟩)
    · exact ⟨b, by simpa using h⟩
    · exact ⟨i, by simpa [Function.update_of_ne hib] using hi⟩

/-! ## Serialization and hashing -/

section Hash

open Serializer

variable (sha512Half : Blob → UInt256)

/-- The bytes of a node in `snfPREFIX`, the bytes its hash is taken of, given the hashes of its
slots (`mHashes`). -/
def prefixBytes (hashes : Fin 16 → UInt256) : SHAMapAbstractNode → Blob
  | inner _ => add32 HashPrefix.innerNode ++ (List.finRange 16).flatMap fun i => addBitString (hashes i)
  | innerV2 depth common _ =>
    add32 HashPrefix.innerNodeV2 ++ (List.finRange 16).flatMap (fun i => addBitString (hashes i)) ++
      add8 depth.toUInt8 ++ (List.range ((depth + 1) / 2)).flatMap fun i => add8 (common.byteAt i)
  | leaf it .tnACCOUNT_STATE =>
    add32 HashPrefix.leafNode ++ Serializer.addRaw it.data ++ addBitString it.tag
  | leaf it .tnTRANSACTION_NM => add32 HashPrefix.transactionID ++ Serializer.addRaw it.data
  | leaf it .tnTRANSACTION_MD =>
    add32 HashPrefix.txNode ++ Serializer.addRaw it.data ++ addBitString it.tag
  | _ => []

/-- The hash of a node as `updateHash` leaves it: zero for a slot holding nothing and for an inner
node without branches, otherwise `sha512Half` of its prefix-format bytes. -/
def getNodeHash : SHAMapAbstractNode → UInt256
  | empty => BaseUInt.zero 32
  | inner ch =>
    if (List.finRange 16).all fun i => (ch i).isEmpty then BaseUInt.zero 32
    else sha512Half (prefixBytes (fun i => getNodeHash (ch i)) (inner ch))
  | innerV2 d c ch =>
    if (List.finRange 16).all fun i => (ch i).isEmpty then BaseUInt.zero 32
    else sha512Half (prefixBytes (fun i => getNodeHash (ch i)) (innerV2 d c ch))
  | leaf it ty =>
    if ty.isLeafType then sha512Half (prefixBytes (fun _ => BaseUInt.zero 32) (leaf it ty))
    else BaseUInt.zero 32

/-- An inner node without branches hashes to zero: the hash of an empty map. -/
theorem getNodeHash_inner_noChildren :
    (inner noChildren).getNodeHash sha512Half = BaseUInt.zero 32 := by
  simp [getNodeHash, noChildren, isEmpty]

theorem getNodeHash_innerV2_noChildren (d : Nat) (c : UInt256) :
    (innerV2 d c noChildren).getNodeHash sha512Half = BaseUInt.zero 32 := by
  simp [getNodeHash, noChildren, isEmpty]

end Hash

end SHAMapAbstractNode

end Ripple
