import ChainSqld.SHAMap.NodeCodec

/-!
# Synchronising a map from its root hash

A map being filled in from peers (`SHAMapSync.cpp`) holds only some of its nodes: an inner node
records the hash of each of its branches and holds the child in memory where it has one.
`addRootNode` installs a root read from bytes whose hash is the one asked for. `addKnownNode`
reads a node from the wire bytes a peer sent for a position, walks from the root towards that
position (taking from the local store, by hash, the nodes on the way that are not in memory), and
hooks the node below its parent if its hash is the one the parent records for it.

- `SyncNode`, the partial tree, and `SyncMap`; `descend`, the loop of `addKnownNode`
  (`addKnownWalk`), and both calls with every result they return;
- the loop runs on one pass per level of the position. In a map of the first version that is
  enough (`addKnownWalk_not_exhausted`, `addKnownNode_error_of_v1`); a v2 inner node carries its own
  depth, so a walk there may need more, and the model then stops with an error of its own;
- `Linked`: every node in memory hashes to what its parent records for its branch. It holds of a
  new map and both calls keep it for any bytes and any position, as long as the local store returns
  for a hash only nodes of that hash (`StoreSound`); the root hash, once set, never changes;
- a call that returns `invalid` hooks no node of the peer's, only nodes of the local store met on
  the way down (`Fills`), so it can still change the tree.
-/

namespace Ripple

open Serializer

/-- `SHAMapAddNode`: whether a call got something new, something it had, or something bad. -/
inductive SHAMapAddNode where
  | useful
  | duplicate
  | invalid
deriving DecidableEq, Repr

/-- `SHAMapState`. -/
inductive SHAMapState where
  | Modifying
  | Immutable
  | Synching
  | Floating
  | Invalid
deriving DecidableEq, Repr

namespace StoredNode

def isInner : StoredNode → Bool
  | inner _ _ | innerV2 _ _ _ _ => true
  | leaf _ _ => false

/-- Whether a node is a `SHAMapInnerNodeV2` (`dynamic_pointer_cast`). -/
def isV2 : StoredNode → Bool
  | innerV2 _ _ _ _ => true
  | _ => false

def isLeaf (n : StoredNode) : Bool := !n.isInner

/-- `isValid`: a node whose type is not `tnERROR`. -/
def isValid : StoredNode → Bool
  | leaf _ .tnERROR => false
  | _ => true

/-- `isEmptyBranch`: the branch bit is clear; a leaf has no branches. -/
def isEmptyBranch : StoredNode → Fin 16 → Bool
  | inner mIsBranch _, i | innerV2 mIsBranch _ _ _, i => !mIsBranch i
  | leaf _ _, _ => true

/-- `getChildHash`. -/
def getChildHash : StoredNode → Fin 16 → UInt256
  | inner _ mHashes, i | innerV2 _ mHashes _ _, i => mHashes i
  | leaf _ _, _ => BaseUInt.zero 32

/-- `SHAMapInnerNodeV2::depth`. -/
def depth : StoredNode → Nat
  | innerV2 _ _ depth _ => depth
  | _ => 0

/-- `key()`: the common prefix of a v2 inner node, the key of a leaf's item. -/
def key : StoredNode → UInt256
  | innerV2 _ _ _ common => common
  | leaf it _ => it.tag
  | inner _ _ => BaseUInt.zero 32

/-- `isInBounds`: a node at depth 64 must be a leaf. -/
def isInBounds (n : StoredNode) (id : SHAMapNodeID) : Bool := !n.isInner || id.mDepth < 64

end StoredNode

/-! ## Maps being synchronised -/

/-- A node of a map being synchronised: `absent` where only the parent's hash of it is known (a
null child pointer), or a node read from bytes with the children held in memory below it. -/
inductive SyncNode where
  | absent
  | present (node : StoredNode) (children : Fin 16 → SyncNode)

namespace SyncNode

/-- A node just read, with nothing below it in memory. -/
def fresh (n : StoredNode) : SyncNode := present n fun _ => absent

/-- The hash a node in memory recomputes from its fields. -/
def hash (sha512Half : Blob → UInt256) : SyncNode → UInt256
  | absent => BaseUInt.zero 32
  | present n _ => n.getNodeHash sha512Half

/-- `canonicalizeChild`: a slot that already holds a node keeps it, an empty one takes `n`. -/
def canonicalizeChild (slot : SyncNode) (n : StoredNode) : SyncNode :=
  match slot with
  | absent => fresh n
  | present m ch => present m ch

/-- The items of the leaves held in memory, in branch order. -/
def leaves : SyncNode → List (SHAMapItem × TNType)
  | absent => []
  | present (.leaf it ty) _ => [(it, ty)]
  | present _ ch => (List.finRange 16).flatMap fun i => leaves (ch i)

end SyncNode

/-- The parts of a `SHAMap` the sync calls read and write. -/
structure SyncMap where
  root : SyncNode
  state : SHAMapState

namespace SyncMap

/-- `SHAMap (type, hash, family, version)`: an empty root of the version's kind, synching. -/
def synching (v2 : Bool) : SyncMap :=
  ⟨SyncNode.fresh (if v2 then .innerV2 (fun _ => false) (fun _ => BaseUInt.zero 32) 0 (BaseUInt.zero 32)
    else .inner (fun _ => false) fun _ => BaseUInt.zero 32), .Synching⟩

/-- `is_v2`: whether the root is a v2 inner node. -/
def isV2 (m : SyncMap) : Bool :=
  match m.root with
  | .present n _ => n.isV2
  | .absent => false

def isSynching (m : SyncMap) : Bool := m.state == .Floating || m.state == .Synching

/-- `root_->getNodeHash ()`. -/
def rootHash (sha512Half : Blob → UInt256) (m : SyncMap) : UInt256 := m.root.hash sha512Half

end SyncMap

/-! ## The calls -/

section Calls

variable (sha512Half : Blob → UInt256) (fetchNodeNT : UInt256 → Option StoredNode)
  (isFullBelow : StoredNode → Bool) (fullBelow : UInt256 → Bool)

/-- `isInconsistentNode`: an inner node of the other version than the map's. -/
def isInconsistentNode (isV2 : Bool) (n : StoredNode) : Bool := n.isInner && isV2 != n.isV2

/-- What `SHAMap::descend` does to the slot of a branch: the slot afterwards, whether it returns a
node to go on with, and whether it found the map invalid. -/
structure Descent where
  slot : SyncNode
  found : Bool
  inconsistent : Bool

/-- `SHAMap::descend` on the slot of a branch whose hash the parent records as `childHash`. A child
not in memory is taken from the local store (`fetchNodeNT`: the tree-node cache, the node store,
the filter) and hooked (`canonicalizeChild`); one of the other version stays hooked, but is not
returned and marks the map invalid (`isInconsistentNode`). -/
def fetchSlot (isV2 : Bool) (slot : SyncNode) (childHash : UInt256) : Descent :=
  match slot with
  | .present n ch => ⟨.present n ch, true, false⟩
  | .absent =>
    match fetchNodeNT childHash with
    | none => ⟨.absent, false, false⟩
    | some n => ⟨SyncNode.fresh n, !isInconsistentNode isV2 n, isInconsistentNode isV2 n⟩

/-- The position `SHAMap::descend` returns for the child it goes on to: in a v2 map the child's own
depth and key (depth 64 for a leaf), otherwise one nibble below the parent. -/
def descendID (isV2 : Bool) (child : SyncNode) (parentID : SHAMapNodeID) (branch : Fin 16) : SHAMapNodeID :=
  match child with
  | .present n _ =>
    if isV2 then (if n.isInner then ⟨n.depth, n.key⟩ else ⟨64, n.key⟩) else parentID.getChildNodeID branch
  | .absent => parentID.getChildNodeID branch

variable (isV2 : Bool) (node : SHAMapNodeID) (newNode : Option StoredNode)

/-- The end of `addKnownNode` when the walk finds no node in the slot of `branch`: the node read
from the peer's bytes is checked against the hash the parent records and against its position, and
hooked if it passes. Returns the result, the slot, and whether the map was found invalid. -/
def hookReceived (slot : SyncNode) (childHash : UInt256) (iNodeID : SHAMapNodeID) :
    SHAMapAddNode × SyncNode × Bool :=
  match newNode with
  | none => (.invalid, slot, false)
  | some n =>
    if !n.isValid || childHash != n.getNodeHash sha512Half then (.invalid, slot, false)
    else if !n.isInBounds iNodeID then (.useful, slot, true)
    else if isInconsistentNode isV2 n then (.useful, slot, true)
    else if (n.isV2 && !hasCommonPrefix iNodeID.mDepth iNodeID.mNodeID node.mNodeID) ||
        (!n.isV2 && iNodeID != node) then (.useful, slot, false)
    else (.useful, slot.canonicalizeChild n, false)

/-- What a pass of the loop of `addKnownNode` comes to: its result, the node it started from with
what it hooked below it, whether it found the map invalid, and whether it ran out of passes before
the loop ended. -/
structure WalkResult where
  result : SHAMapAddNode
  node : SyncNode
  invalid : Bool
  exhausted : Bool

/-- The loop of `addKnownNode` from `iNode` at `iNodeID` towards `node`: while `iNode` is an inner
node not known to be full below and above the position, go down the branch towards it; stop with
`invalid` at an empty branch, with `duplicate` at a child known to be full below, and hook the
received node where the walk finds no node. `fuel` bounds the passes, and a walk that needs more
ends `exhausted`: the position grows by a nibble at each pass of a map of the first version, but a
v2 inner node carries its own depth, which need not be below the next. -/
def addKnownWalk : Nat → SyncNode → SHAMapNodeID → WalkResult
  | 0, iNode, _ => ⟨.duplicate, iNode, false, true⟩
  | _, .absent, _ => ⟨.duplicate, .absent, false, false⟩
  | fuel + 1, .present f ch, iNodeID =>
    if !(f.isInner && !isFullBelow f && decide (iNodeID.mDepth < node.mDepth)) then
      ⟨.duplicate, .present f ch, false, false⟩
    else
      let branch := iNodeID.selectBranch node.mNodeID
      if f.isEmptyBranch branch then ⟨.invalid, .present f ch, false, false⟩
      else
        let childHash := f.getChildHash branch
        if fullBelow childHash then ⟨.duplicate, .present f ch, false, false⟩
        else
          let d := fetchSlot fetchNodeNT isV2 (ch branch) childHash
          if d.found then
            let r := addKnownWalk fuel d.slot (descendID isV2 d.slot iNodeID branch)
            ⟨r.result, .present f (Function.update ch branch r.node), r.invalid, r.exhausted⟩
          else
            let h := hookReceived sha512Half isV2 node newNode d.slot childHash (iNodeID.getChildNodeID branch)
            ⟨h.1, .present f (Function.update ch branch h.2.1), d.inconsistent || h.2.2, false⟩

/-- `SHAMap::addKnownNode`: the bytes are read first (a malformed node throws, changing nothing);
then the walk from the root, with one pass per level the position lies below the root. A walk that
needs more passes is not followed here: the call ends with an error of the model's own. -/
def addKnownNode (m : SyncMap) (node : SHAMapNodeID) (rawNode : Blob) :
    Except String (SHAMapAddNode × SyncMap) :=
  if !m.isSynching then .ok (.duplicate, m)
  else do
    let newNode ← StoredNode.make sha512Half rawNode .snfWIRE node
    let r := addKnownWalk sha512Half fetchNodeNT isFullBelow fullBelow m.isV2 node newNode
      (node.mDepth + 1) m.root SHAMapNodeID.root
    if r.exhausted then .error "walk deeper than the position"
    else .ok (r.result, ⟨r.node, if r.invalid then .Invalid else m.state⟩)

/-- `SHAMap::addRootNode`: a map whose root hash is set already has its root; otherwise the node
read from the bytes becomes the root if its hash is the one asked for. A root that is a leaf ends
the synching. -/
def addRootNode (m : SyncMap) (hash : UInt256) (rootNode : Blob) (format : SHANodeFormat) :
    Except String (SHAMapAddNode × SyncMap) :=
  if !(m.rootHash sha512Half).isZero then .ok (.duplicate, m)
  else
    (StoredNode.make sha512Half rootNode format SHAMapNodeID.root).map fun
      | none => (.invalid, m)
      | some n =>
        if !n.isValid || n.getNodeHash sha512Half != hash then (.invalid, m)
        else (.useful, ⟨SyncNode.fresh n, if n.isLeaf then .Modifying else m.state⟩)

/-- A call a peer's data leads to. -/
inductive SyncCall where
  | addRootNode (hash : UInt256) (rootNode : Blob) (format : SHANodeFormat)
  | addKnownNode (node : SHAMapNodeID) (rawNode : Blob)

/-- One call: its result, or the message it throws. -/
def SyncMap.call (m : SyncMap) : SyncCall → Except String (SHAMapAddNode × SyncMap)
  | .addRootNode hash rootNode format => addRootNode sha512Half m hash rootNode format
  | .addKnownNode node rawNode => addKnownNode sha512Half fetchNodeNT isFullBelow fullBelow m node rawNode

/-- The map after a sequence of calls; a call that throws leaves it as it was. -/
def SyncMap.run (m : SyncMap) (calls : List SyncCall) : SyncMap :=
  calls.foldl (fun m c =>
    match m.call sha512Half fetchNodeNT isFullBelow fullBelow c with
    | .ok r => r.2
    | .error _ => m) m

end Calls

/-! ## The hash links -/

namespace SyncNode

/-- The node itself, without what lies below it. -/
def top : SyncNode → Option StoredNode
  | absent => none
  | present n _ => some n

/-- The node in memory below branch `i` (`getChild`). -/
def getChild : SyncNode → Fin 16 → SyncNode
  | absent, _ => absent
  | present _ ch, i => ch i

theorem hash_eq_of_top_eq (sha512Half : Blob → UInt256) {t t' : SyncNode} (h : t'.top = t.top) :
    t'.hash sha512Half = t.hash sha512Half := by
  cases t <;> cases t' <;> simp_all [top, hash]

end SyncNode

section Linked

variable (sha512Half : Blob → UInt256)

/-- Every node in memory is one `make` can return, sits below a branch bit of its parent, and
hashes to what the parent records for that branch. -/
inductive Linked : SyncNode → Prop
  | absent : Linked .absent
  | present {n : StoredNode} {ch : Fin 16 → SyncNode} (hread : n.Readable sha512Half)
      (hlink : ∀ i, ch i ≠ .absent → n.isEmptyBranch i = false ∧ (ch i).hash sha512Half = n.getChildHash i)
      (hch : ∀ i, Linked (ch i)) : Linked (.present n ch)

theorem Linked.fresh {n : StoredNode} (h : n.Readable sha512Half) : Linked sha512Half (SyncNode.fresh n) :=
  .present h (fun _ hi => absurd rfl hi) fun _ => .absent

/-- A linked node stays linked when a branch of it takes a linked node of the hash it records. -/
theorem Linked.update {n : StoredNode} {ch : Fin 16 → SyncNode} {b : Fin 16} {c : SyncNode}
    (h : Linked sha512Half (.present n ch)) (hc : Linked sha512Half c)
    (hb : c ≠ .absent → n.isEmptyBranch b = false ∧ c.hash sha512Half = n.getChildHash b) :
    Linked sha512Half (.present n (Function.update ch b c)) := by
  cases h with
  | present hread hlink hch =>
    refine .present hread (fun i hi => ?_) (fun i => ?_)
    · by_cases hib : i = b
      · subst hib
        rw [Function.update_self] at hi ⊢
        exact hb hi
      · rw [Function.update_of_ne hib] at hi ⊢
        exact hlink i hi
    · by_cases hib : i = b
      · subst hib
        rw [Function.update_self]
        exact hc
      · rw [Function.update_of_ne hib]
        exact hch i

/-- The initial map of a synchronisation is linked. -/
theorem linked_synching (v2 : Bool) : Linked sha512Half (SyncMap.synching v2).root := by
  apply Linked.fresh
  cases v2 <;> trivial

variable (fetchNodeNT : UInt256 → Option StoredNode)

/-- The local store returns for a hash only nodes of that hash that `make` can return: the
tree-node cache and the node store hold nodes checked when they were stored, and the filter's
fetch packs are checked against the hash they are asked for. -/
def StoreSound : Prop :=
  ∀ h n, fetchNodeNT h = some n → n.getNodeHash sha512Half = h ∧ n.Readable sha512Half

end Linked

section Walk

variable (sha512Half : Blob → UInt256) (fetchNodeNT : UInt256 → Option StoredNode)
  (isFullBelow : StoredNode → Bool) (fullBelow : UInt256 → Bool) (isV2 : Bool) (node : SHAMapNodeID)
  (newNode : Option StoredNode)

/-- The slot `descend` leaves holds a linked node of the hash the parent records, and holds a node
whenever `descend` returns one. -/
theorem fetchSlot_linked (hs : StoreSound sha512Half fetchNodeNT) {slot : SyncNode} {childHash : UInt256}
    (hl : Linked sha512Half slot) (hh : slot ≠ .absent → slot.hash sha512Half = childHash) :
    Linked sha512Half (fetchSlot fetchNodeNT isV2 slot childHash).slot ∧
      ((fetchSlot fetchNodeNT isV2 slot childHash).slot ≠ .absent →
        (fetchSlot fetchNodeNT isV2 slot childHash).slot.hash sha512Half = childHash) ∧
      ((fetchSlot fetchNodeNT isV2 slot childHash).found = true →
        (fetchSlot fetchNodeNT isV2 slot childHash).slot ≠ .absent) := by
  cases slot with
  | present n ch => exact ⟨hl, hh, fun _ h => nomatch h⟩
  | absent =>
    cases hf : fetchNodeNT childHash with
    | none => simp [fetchSlot, hf, Linked.absent]
    | some n =>
      obtain ⟨hhash, hread⟩ := hs _ _ hf
      simp only [fetchSlot, hf]
      exact ⟨Linked.fresh sha512Half hread, fun _ => hhash, fun _ h => nomatch h⟩

/-- The received node is hooked only if its hash is the one the parent records. -/
theorem hookReceived_linked (hr : ∀ n, newNode = some n → n.Readable sha512Half) {slot : SyncNode}
    {childHash : UInt256} (iNodeID : SHAMapNodeID) (hl : Linked sha512Half slot)
    (hh : slot ≠ .absent → slot.hash sha512Half = childHash) :
    Linked sha512Half (hookReceived sha512Half isV2 node newNode slot childHash iNodeID).2.1 ∧
      ((hookReceived sha512Half isV2 node newNode slot childHash iNodeID).2.1 ≠ .absent →
        (hookReceived sha512Half isV2 node newNode slot childHash iNodeID).2.1.hash sha512Half = childHash) := by
  cases newNode with
  | none => exact ⟨hl, hh⟩
  | some n =>
    simp only [hookReceived]
    split_ifs with h1 h2 h3 h4
    · exact ⟨hl, hh⟩
    · exact ⟨hl, hh⟩
    · exact ⟨hl, hh⟩
    · exact ⟨hl, hh⟩
    -- the hash passed the check
    have hhash : n.getNodeHash sha512Half = childHash := by
      simp only [Bool.or_eq_true, Bool.not_eq_true', bne_iff_ne, ne_eq] at h1
      exact (not_not.mp (not_or.mp h1).2).symm
    cases slot with
    | present m ch => exact ⟨hl, hh⟩
    | absent => exact ⟨Linked.fresh sha512Half (hr n rfl), fun _ => hhash⟩

/-- The walk changes nothing but what lies below the node it starts from. -/
theorem top_addKnownWalk (fuel : Nat) (t : SyncNode) (iNodeID : SHAMapNodeID) :
    (addKnownWalk sha512Half fetchNodeNT isFullBelow fullBelow isV2 node newNode fuel t iNodeID).node.top =
      t.top := by
  cases fuel with
  | zero => rfl
  | succ fuel =>
    cases t with
    | absent => rfl
    | present f ch =>
      simp only [addKnownWalk]
      split_ifs <;> rfl

/-- The walk keeps the links, for any received node `make` can return. -/
theorem linked_addKnownWalk (hs : StoreSound sha512Half fetchNodeNT)
    (hr : ∀ n, newNode = some n → n.Readable sha512Half) :
    ∀ (fuel : Nat) (t : SyncNode) (iNodeID : SHAMapNodeID), Linked sha512Half t →
      Linked sha512Half (addKnownWalk sha512Half fetchNodeNT isFullBelow fullBelow isV2 node newNode fuel t iNodeID).node
  | 0, _, _, hl => hl
  | _ + 1, .absent, _, hl => hl
  | fuel + 1, .present f ch, iNodeID, hl => by
    have hch : ∀ i, Linked sha512Half (ch i) := by cases hl with | present _ _ hch => exact hch
    have hlink : ∀ i, ch i ≠ .absent → (ch i).hash sha512Half = f.getChildHash i := by
      cases hl with | present _ hlink _ => exact fun i hi => (hlink i hi).2
    simp only [addKnownWalk]
    split_ifs with hgo hempty hfull hfound
    · exact hl
    · exact hl
    · exact hl
    · -- the walk goes on below the child `descend` returns
      set branch := iNodeID.selectBranch node.mNodeID
      obtain ⟨hdl, hdh, hdf⟩ := fetchSlot_linked sha512Half fetchNodeNT isV2 hs (hch branch) (hlink branch)
      have htop := top_addKnownWalk sha512Half fetchNodeNT isFullBelow fullBelow isV2 node newNode fuel
        (fetchSlot fetchNodeNT isV2 (ch branch) (f.getChildHash branch)).slot
        (descendID isV2 (fetchSlot fetchNodeNT isV2 (ch branch) (f.getChildHash branch)).slot iNodeID branch)
      refine hl.update sha512Half (linked_addKnownWalk hs hr fuel _ _ hdl) fun hne => ⟨by simpa using hempty, ?_⟩
      rw [SyncNode.hash_eq_of_top_eq sha512Half htop]
      exact hdh (hdf hfound)
    · -- no node below: the received one, if it passes
      set branch := iNodeID.selectBranch node.mNodeID
      obtain ⟨hdl, hdh, -⟩ := fetchSlot_linked sha512Half fetchNodeNT isV2 hs (hch branch) (hlink branch)
      obtain ⟨hhl, hhh⟩ := hookReceived_linked sha512Half isV2 node newNode hr (iNodeID.getChildNodeID branch) hdl hdh
      exact hl.update sha512Half hhl fun hne => ⟨by simpa using hempty, hhh hne⟩

/-- In a map of the first version `descend` goes one nibble down. -/
theorem descendID_of_v1 (child : SyncNode) (parentID : SHAMapNodeID) (branch : Fin 16) :
    descendID false child parentID branch = parentID.getChildNodeID branch := by
  cases child <;> rfl

/-- **In a map of the first version the walk ends within its passes.** Each pass goes one nibble
down and the loop stops at the depth of `node`, so from a position no deeper than `node`,
`node.mDepth - iNodeID.mDepth + 1` passes are enough. -/
theorem addKnownWalk_not_exhausted :
    ∀ (fuel : Nat) (t : SyncNode) (iNodeID : SHAMapNodeID), iNodeID.mDepth ≤ node.mDepth →
      node.mDepth < fuel + iNodeID.mDepth →
      (addKnownWalk sha512Half fetchNodeNT isFullBelow fullBelow false node newNode fuel t iNodeID).exhausted = false
  | 0, _, _, hle, hlt => absurd hlt (by omega)
  | _ + 1, .absent, _, _, _ => rfl
  | fuel + 1, .present f ch, iNodeID, hle, hlt => by
    simp only [addKnownWalk]
    split_ifs with hgo hempty hfull hfound
    · rfl
    · rfl
    · rfl
    · -- the loop went on, so `iNodeID` lies above `node`
      have hdeep : iNodeID.mDepth < node.mDepth := by
        simp only [Bool.and_eq_false_imp, Bool.not_eq_eq_eq_not, Bool.not_true, decide_eq_false_iff_not,
          not_lt, not_forall, not_le] at hgo
        exact hgo.2
      rw [descendID_of_v1]
      exact addKnownWalk_not_exhausted fuel _ _ (by simp only [SHAMapNodeID.getChildNodeID_mDepth]; omega)
        (by simp only [SHAMapNodeID.getChildNodeID_mDepth]; omega)
    · rfl

end Walk

/-! ## What a call adds -/

/-- `t'` is `t` with some slots that held nothing filled with nodes `src` allows, with what lies
below them filled likewise. -/
inductive Fills (src : StoredNode → Prop) : SyncNode → SyncNode → Prop
  | absent : Fills src .absent .absent
  | fill {n : StoredNode} {ch : Fin 16 → SyncNode} (hn : src n) (h : ∀ i, Fills src .absent (ch i)) :
      Fills src .absent (.present n ch)
  | present {n : StoredNode} {ch ch' : Fin 16 → SyncNode} (h : ∀ i, Fills src (ch i) (ch' i)) :
      Fills src (.present n ch) (.present n ch')

namespace Fills

variable {src : StoredNode → Prop}

theorem refl : ∀ t : SyncNode, Fills src t t
  | .absent => .absent
  | .present _ ch => .present fun i => refl (ch i)

theorem mono {src' : StoredNode → Prop} (hsrc : ∀ n, src n → src' n) {t t' : SyncNode}
    (h : Fills src t t') : Fills src' t t' := by
  induction h with
  | absent => exact .absent
  | fill hn _ ih => exact .fill (hsrc _ hn) ih
  | present _ ih => exact .present ih

theorem fresh {n : StoredNode} (hn : src n) : Fills src .absent (SyncNode.fresh n) :=
  .fill hn fun _ => .absent

/-- A slot filled with a fresh node from `src` and then filled below is filled from nothing. -/
theorem absent_of_fresh {n : StoredNode} (hn : src n) {t : SyncNode} (h : Fills src (SyncNode.fresh n) t) :
    Fills src .absent t := by
  cases h with
  | present h => exact .fill hn h

theorem update {n : StoredNode} {ch : Fin 16 → SyncNode} {b : Fin 16} {c : SyncNode}
    (h : Fills src (ch b) c) : Fills src (.present n ch) (.present n (Function.update ch b c)) := by
  refine .present fun i => ?_
  by_cases hib : i = b
  · subst hib
    rw [Function.update_self]
    exact h
  · rw [Function.update_of_ne hib]
    exact refl _

end Fills

section Adds

variable (sha512Half : Blob → UInt256) (fetchNodeNT : UInt256 → Option StoredNode)
  (isFullBelow : StoredNode → Bool) (fullBelow : UInt256 → Bool) (isV2 : Bool) (node : SHAMapNodeID)
  (newNode : Option StoredNode)

/-- The nodes a call may add: nodes of the local store, and the node received when the call is
`useful`. -/
def Added (result : SHAMapAddNode) (n : StoredNode) : Prop :=
  (∃ h, fetchNodeNT h = some n) ∨ (result = .useful ∧ newNode = some n)

/-- `descend` fills the slot with nothing or a node of the store. -/
theorem fetchSlot_fills (slot : SyncNode) (childHash : UInt256) :
    Fills (fun n => ∃ h, fetchNodeNT h = some n) slot (fetchSlot fetchNodeNT isV2 slot childHash).slot := by
  cases slot with
  | present n ch => exact Fills.refl _
  | absent =>
    cases hf : fetchNodeNT childHash with
    | none => simp only [fetchSlot, hf]; exact .absent
    | some n => simp only [fetchSlot, hf]; exact Fills.fresh ⟨childHash, hf⟩

theorem hookReceived_fills {slot : SyncNode} (hslot : Fills (fun n => ∃ h, fetchNodeNT h = some n) .absent slot)
    (childHash : UInt256) (iNodeID : SHAMapNodeID) :
    Fills (Added fetchNodeNT newNode (hookReceived sha512Half isV2 node newNode slot childHash iNodeID).1) .absent
      (hookReceived sha512Half isV2 node newNode slot childHash iNodeID).2.1 := by
  have hstore : ∀ r, Fills (Added fetchNodeNT newNode r) .absent slot := fun r =>
    hslot.mono fun n hn => Or.inl hn
  cases newNode with
  | none => exact hstore _
  | some n =>
    simp only [hookReceived]
    split_ifs
    · exact hstore _
    · exact hstore _
    · exact hstore _
    · exact hstore _
    · cases slot with
      | present m ch => exact hstore _
      | absent => exact Fills.fresh (Or.inr ⟨rfl, rfl⟩)

/-- The walk fills slots only with nodes of the store, and with the received node if it returns
`useful`. -/
theorem addKnownWalk_fills :
    ∀ (fuel : Nat) (t : SyncNode) (iNodeID : SHAMapNodeID),
      Fills (Added fetchNodeNT newNode
          (addKnownWalk sha512Half fetchNodeNT isFullBelow fullBelow isV2 node newNode fuel t iNodeID).result) t
        (addKnownWalk sha512Half fetchNodeNT isFullBelow fullBelow isV2 node newNode fuel t iNodeID).node
  | 0, t, _ => Fills.refl t
  | _ + 1, .absent, _ => .absent
  | fuel + 1, .present f ch, iNodeID => by
    simp only [addKnownWalk]
    split_ifs with hgo hempty hfull hfound
    · exact Fills.refl _
    · exact Fills.refl _
    · exact Fills.refl _
    · -- the child in memory, or a node of the store, and what the walk adds below it
      apply Fills.update
      have ih := addKnownWalk_fills fuel (fetchSlot fetchNodeNT isV2 (ch (iNodeID.selectBranch node.mNodeID))
        (f.getChildHash (iNodeID.selectBranch node.mNodeID))).slot
        (descendID isV2 (fetchSlot fetchNodeNT isV2 (ch (iNodeID.selectBranch node.mNodeID))
          (f.getChildHash (iNodeID.selectBranch node.mNodeID))).slot iNodeID (iNodeID.selectBranch node.mNodeID))
      cases hc : ch (iNodeID.selectBranch node.mNodeID) with
      | present m cch =>
        simp only [hc, fetchSlot] at ih ⊢
        exact ih
      | absent =>
        cases hf : fetchNodeNT (f.getChildHash (iNodeID.selectBranch node.mNodeID)) with
        | none => simp [hc, fetchSlot, hf] at hfound
        | some m =>
          simp only [hc, fetchSlot, hf] at ih ⊢
          exact ih.absent_of_fresh (Or.inl ⟨_, hf⟩)
    · -- nothing below: the received node, checked
      apply Fills.update
      have hslot : Fills (fun n => ∃ h, fetchNodeNT h = some n) .absent
          (fetchSlot fetchNodeNT isV2 (ch (iNodeID.selectBranch node.mNodeID))
            (f.getChildHash (iNodeID.selectBranch node.mNodeID))).slot := by
        cases hc : ch (iNodeID.selectBranch node.mNodeID) with
        | present m cch => simp [hc, fetchSlot] at hfound
        | absent =>
          have := fetchSlot_fills fetchNodeNT isV2 .absent (f.getChildHash (iNodeID.selectBranch node.mNodeID))
          exact this
      have hh := hookReceived_fills sha512Half fetchNodeNT isV2 node newNode hslot
        (f.getChildHash (iNodeID.selectBranch node.mNodeID)) (iNodeID.getChildNodeID (iNodeID.selectBranch node.mNodeID))
      cases hc : ch (iNodeID.selectBranch node.mNodeID) with
      | present m cch => simp [hc, fetchSlot] at hfound
      | absent =>
        rw [hc] at hh
        exact hh

end Adds

/-! ## Both calls, and runs of them -/

section Runs

variable (sha512Half : Blob → UInt256) (fetchNodeNT : UInt256 → Option StoredNode)
  (isFullBelow : StoredNode → Bool) (fullBelow : UInt256 → Bool)

/-- `addKnownNode` keeps the links and the root, and adds nodes of the local store, and the node it
reads from the peer's bytes only when it returns `useful`. -/
theorem addKnownNode_spec (hs : StoreSound sha512Half fetchNodeNT) {m m' : SyncMap} {node : SHAMapNodeID}
    {rawNode : Blob} {r : SHAMapAddNode} (hl : Linked sha512Half m.root)
    (h : addKnownNode sha512Half fetchNodeNT isFullBelow fullBelow m node rawNode = .ok (r, m')) :
    Linked sha512Half m'.root ∧ m'.root.top = m.root.top ∧
      Fills (fun n => (∃ h, fetchNodeNT h = some n) ∨
        (r = .useful ∧ StoredNode.make sha512Half rawNode .snfWIRE node = .ok (some n))) m.root m'.root := by
  unfold addKnownNode at h
  split_ifs at h with hsync
  · -- not synching: nothing happens
    cases h
    exact ⟨hl, rfl, Fills.refl _⟩
  · obtain ⟨newNode, hmake, hres⟩ := Except.bind_eq_ok h
    dsimp only at hres
    -- a walk that runs out of passes throws
    split at hres
    · cases hres
    cases hres
    have hr : ∀ n, newNode = some n → n.Readable sha512Half := fun n hn =>
      StoredNode.make_readable sha512Half (hn ▸ hmake)
    refine ⟨linked_addKnownWalk sha512Half fetchNodeNT isFullBelow fullBelow _ node newNode hs hr _ _ _ hl,
      top_addKnownWalk sha512Half fetchNodeNT isFullBelow fullBelow _ node newNode _ _ _, ?_⟩
    refine (addKnownWalk_fills sha512Half fetchNodeNT isFullBelow fullBelow _ node newNode _ _ _).mono ?_
    rintro n (hstore | ⟨huseful, rfl⟩)
    · exact Or.inl hstore
    · exact Or.inr ⟨huseful, hmake⟩

/-- In a map of the first version the walk never runs out of passes, so `addKnownNode` throws only
when the bytes do not read as a node. -/
theorem addKnownNode_error_of_v1 {m : SyncMap} (hv1 : m.isV2 = false) {node : SHAMapNodeID} {rawNode : Blob}
    {e : String} (h : addKnownNode sha512Half fetchNodeNT isFullBelow fullBelow m node rawNode = .error e) :
    StoredNode.make sha512Half rawNode .snfWIRE node = .error e := by
  unfold addKnownNode at h
  split_ifs at h with hsync
  cases hmake : StoredNode.make sha512Half rawNode .snfWIRE node with
  | error e' =>
    rw [hmake] at h
    cases h
    rfl
  | ok newNode =>
    rw [hmake, Except.ok_bind, hv1] at h
    dsimp only at h
    rw [addKnownWalk_not_exhausted sha512Half fetchNodeNT isFullBelow fullBelow node newNode _ _ _ (Nat.zero_le _)
        (by simp only [SHAMapNodeID.root]; omega)] at h
    cases h

/-- `addRootNode` changes nothing, or, when the map has no root hash yet and the node read has the
hash asked for, makes that node the root and returns `useful`. -/
theorem addRootNode_spec {m m' : SyncMap} {hash : UInt256} {rootNode : Blob} {format : SHANodeFormat}
    {r : SHAMapAddNode} (hl : Linked sha512Half m.root)
    (h : addRootNode sha512Half m hash rootNode format = .ok (r, m')) :
    Linked sha512Half m'.root ∧
      ((r ≠ .useful ∧ m' = m) ∨ (r = .useful ∧ (m.rootHash sha512Half).isZero = true ∧ m'.rootHash sha512Half = hash)) := by
  unfold addRootNode at h
  split_ifs at h with hzero
  · cases h
    exact ⟨hl, Or.inl ⟨by decide, rfl⟩⟩
  · obtain ⟨node, hmake, hres⟩ := StoredNode.except_map_eq_ok h
    cases node with
    | none =>
      cases hres
      exact ⟨hl, Or.inl ⟨by decide, rfl⟩⟩
    | some n =>
      dsimp only at hres
      by_cases hbad : (!n.isValid || n.getNodeHash sha512Half != hash) = true
      · rw [if_pos hbad] at hres
        cases hres
        exact ⟨hl, Or.inl ⟨by decide, rfl⟩⟩
      · rw [if_neg hbad] at hres
        cases hres
        have hhash : n.getNodeHash sha512Half = hash := (by simpa using hbad : _ ∧ _).2
        exact ⟨Linked.fresh sha512Half (StoredNode.make_readable sha512Half hmake),
          Or.inr ⟨rfl, by simpa using hzero, hhash⟩⟩

/-- One call of either kind keeps the links; it keeps a root hash that is set; an `addRootNode`
that returns `useful` sets the root hash to the one asked for; and a call that returns `invalid`
adds nothing but nodes of the local store. -/
theorem call_spec (hs : StoreSound sha512Half fetchNodeNT) {m m' : SyncMap} {c : SyncCall}
    {r : SHAMapAddNode} (hl : Linked sha512Half m.root)
    (h : m.call sha512Half fetchNodeNT isFullBelow fullBelow c = .ok (r, m')) :
    Linked sha512Half m'.root ∧
      ((m.rootHash sha512Half).isZero = false → m'.rootHash sha512Half = m.rootHash sha512Half) ∧
      (∀ hash rootNode format, c = .addRootNode hash rootNode format → r = .useful →
        m'.rootHash sha512Half = hash) ∧
      (r = .invalid → Fills (fun n => ∃ h, fetchNodeNT h = some n) m.root m'.root) := by
  cases c with
  | addRootNode hash rootNode format =>
    obtain ⟨hl', hcases⟩ := addRootNode_spec sha512Half hl h
    refine ⟨hl', ?_, ?_, ?_⟩
    · intro hz
      rcases hcases with ⟨-, rfl⟩ | ⟨-, hz', -⟩
      · rfl
      · rw [hz] at hz'
        cases hz'
    · rintro hash' rootNode' format' hc rfl
      cases hc
      rcases hcases with ⟨hne, -⟩ | ⟨-, -, hroot⟩
      · exact absurd rfl hne
      · exact hroot
    · rintro rfl
      rcases hcases with ⟨-, rfl⟩ | ⟨hu, -⟩
      · exact Fills.refl _
      · cases hu
  | addKnownNode node rawNode =>
    obtain ⟨hl', htop, hfills⟩ := addKnownNode_spec sha512Half fetchNodeNT isFullBelow fullBelow hs hl h
    refine ⟨hl', fun _ => SyncNode.hash_eq_of_top_eq sha512Half htop, fun _ _ _ hc => (nomatch hc), ?_⟩
    rintro rfl
    refine hfills.mono ?_
    rintro n (hstore | ⟨hu, -⟩)
    · exact hstore
    · cases hu

theorem run_cons (m : SyncMap) (c : SyncCall) (calls : List SyncCall) :
    m.run sha512Half fetchNodeNT isFullBelow fullBelow (c :: calls) =
      (match m.call sha512Half fetchNodeNT isFullBelow fullBelow c with
        | .ok r => r.2
        | .error _ => m).run sha512Half fetchNodeNT isFullBelow fullBelow calls := rfl

/-- Every run of calls keeps the links, and the root hash once it is set. -/
theorem linked_run (hs : StoreSound sha512Half fetchNodeNT) :
    ∀ (calls : List SyncCall) (m : SyncMap), Linked sha512Half m.root →
      Linked sha512Half (m.run sha512Half fetchNodeNT isFullBelow fullBelow calls).root ∧
        ((m.rootHash sha512Half).isZero = false →
          (m.run sha512Half fetchNodeNT isFullBelow fullBelow calls).rootHash sha512Half = m.rootHash sha512Half)
  | [], _, hl => ⟨hl, fun _ => rfl⟩
  | c :: calls, m, hl => by
    rw [run_cons]
    -- one step: a call that throws leaves the map as it was
    split
    · rename_i res hres
      obtain ⟨hl', hhash, -, -⟩ := call_spec sha512Half fetchNodeNT isFullBelow fullBelow hs hl hres
      obtain ⟨hlr, hhr⟩ := linked_run hs calls res.2 hl'
      refine ⟨hlr, fun hz => ?_⟩
      rw [hhr (by rw [hhash hz]; exact hz), hhash hz]
    · exact linked_run hs calls m hl

end Runs

end Ripple
