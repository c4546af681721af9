import ChainSqld.SHAMap.TreeNode

/-!
# The SHAMap and its operations

`SHAMap.cpp`'s lookups and updates. Each update walks from the root towards the key, keeping the
nodes it passes on a stack (`walkTowardsKey`), changes the node where the walk stopped, and then
rebuilds the path bottom-up from the stack: `dirtyUp` for insertions and updates, the loop of
`delItem`, which also collapses nodes left with one branch, for deletions.

Nodes are values here: `unshareNode` and the copy-on-write sequence numbers leave nothing to model,
since a node is changed only by building its replacement, and the root is the last frame of every
stack. The version of the map is the kind of its root (`is_v2`).
-/

namespace Ripple

open SHAMapAbstractNode

/-- A map is its root node. -/
structure SHAMap where
  root : SHAMapAbstractNode

/-- The stack of `(node, position)` frames a walk leaves, top first; the root frame is last. -/
abbrev SharedPtrNodeStack := List (SHAMapAbstractNode × SHAMapNodeID)

namespace SHAMap

/-- `SHAMap(type, family, version)`: an empty root of the version's kind; a v2 root has depth 0. -/
def empty (v2 : Bool) : SHAMap :=
  ⟨if v2 then innerV2 0 (BaseUInt.zero 32) noChildren else .inner noChildren⟩

/-- `is_v2`: whether the root is a `SHAMapInnerNodeV2`. -/
def isV2 (m : SHAMap) : Bool :=
  match m.root with
  | innerV2 _ _ _ => true
  | _ => false

/-- The position `walkTowardsKey` gives the child of a v2 node: its own depth and prefix, or
depth 64 and the key for a leaf. -/
def v2ChildID : SHAMapAbstractNode → SHAMapNodeID
  | innerV2 d c _ => ⟨d, c⟩
  | n => ⟨64, n.key⟩

/-- A v1 inner node, which a v2 walk refuses to enter. -/
def isV1Inner : SHAMapAbstractNode → Bool
  | .inner _ => true
  | _ => false

/-- `SHAMap::walkTowardsKey`: descend by the key's nibbles, pushing every node passed, until a
leaf, an empty branch, or (v2) a node whose prefix the key does not share. Returns the leaf's item
and type if it ended on one. -/
def walkTowardsKey (id : UInt256) :
    SHAMapAbstractNode → SHAMapNodeID → SharedPtrNodeStack →
      Option (SHAMapItem × TNType) × SharedPtrNodeStack
  | .inner ch, nodeID, stack =>
    let stack := (.inner ch, nodeID) :: stack
    let branch := nodeID.selectBranch id
    if (ch branch).isEmpty then (none, stack)
    else walkTowardsKey id (ch branch) (nodeID.getChildNodeID branch) stack
  | innerV2 depth common ch, nodeID, stack =>
    let stack := (innerV2 depth common ch, nodeID) :: stack
    if !hasCommonPrefix depth common id then (none, stack)
    else
      let branch := nodeID.selectBranch id
      if (ch branch).isEmpty then (none, stack)
      else if isV1Inner (ch branch) then (none, stack)
      else walkTowardsKey id (ch branch) (v2ChildID (ch branch)) stack
  | leaf item type, nodeID, stack => (some (item, type), (leaf item type, nodeID) :: stack)
  | .empty, _, stack => (none, stack)

/-- One step of `dirtyUp`: the frame's node with the rebuilt child in the branch of `target`. -/
def dirtyStep (target : UInt256) (child : SHAMapAbstractNode)
    (frame : SHAMapAbstractNode × SHAMapNodeID) : SHAMapAbstractNode :=
  frame.1.setChild (frame.2.selectBranch target) child

/-- `SHAMap::dirtyUp`: relink the path on the stack above `child`; the result is the new root. -/
def dirtyUp (stack : SharedPtrNodeStack) (target : UInt256) (child : SHAMapAbstractNode) :
    SHAMapAbstractNode :=
  stack.foldl (dirtyStep target) child

/-- `SHAMap::onlyBelow`: the item of the only leaf below a node, following single branches. -/
def onlyBelow : SHAMapAbstractNode → Option SHAMapItem
  | leaf item _ => some item
  | .inner ch =>
    match (List.finRange 16).filter fun i => !(ch i).isEmpty with
    | [i] => onlyBelow (ch i)
    | _ => none
  | innerV2 _ _ ch =>
    match (List.finRange 16).filter fun i => !(ch i).isEmpty with
    | [i] => onlyBelow (ch i)
    | _ => none
  | .empty => none

/-- One pass of the loop of `delItem` over a frame: link the rebuilt child, then, below the root,
drop or pull up a node left with a single branch. A v1 node whose only leaf is pulled up is
replaced by a new leaf of the deleted leaf's `type`; a v2 node is replaced by its one child. -/
def delStep (isv2 : Bool) (id : UInt256) (type : TNType) (prevNode : SHAMapAbstractNode)
    (frame : SHAMapAbstractNode × SHAMapNodeID) : SHAMapAbstractNode :=
  let node := frame.1.setChild (frame.2.selectBranch id) prevNode
  if frame.2.isRoot then node
  else
    let bc := node.getBranchCount
    if isv2 then
      if bc = 1 then
        match (List.finRange 16).find? fun i => !node.isEmptyBranch i with
        | some i => node.getChild i
        | none => prevNode
      else node
    else if bc = 0 then .empty
    else if bc = 1 then
      match onlyBelow node with
      | some item => leaf item type
      | none => node
    else node

/-- `SHAMap::delItem`: `false` if no leaf holds the key, otherwise the tree without it. -/
def delItem (m : SHAMap) (id : UInt256) : Bool × SHAMap :=
  match (walkTowardsKey id m.root .root []).2 with
  | [] => (false, m)
  | (top, _) :: stack =>
    match top with
    | leaf item type =>
      if item.tag = id then (true, ⟨stack.foldl (delStep m.isV2 id type) .empty⟩) else (false, m)
    | _ => (false, m)

/-- The loop of `addGiveItem` that turns a v1 leaf into a chain of inner nodes: while the two keys
take the same branch, push a new inner node and go one level down. The fuel only bounds the
depth; two different keys part within 64 nibbles. -/
def splitLoop (tag other : UInt256) : Nat → SHAMapNodeID → SharedPtrNodeStack →
    SHAMapNodeID × SharedPtrNodeStack
  | 0, nodeID, stack => (nodeID, stack)
  | fuel + 1, nodeID, stack =>
    if nodeID.selectBranch tag = nodeID.selectBranch other then
      splitLoop tag other fuel (nodeID.getChildNodeID (nodeID.selectBranch tag))
        ((.inner noChildren, nodeID) :: stack)
    else (nodeID, stack)

/-- The new v2 node of `addGiveItem` when the key leaves the prefix of the node `node` where the
walk stopped: at the depth where they part, with `node` and the new leaf as its two children. -/
def splitV2 (node : SHAMapAbstractNode) (depth : Nat) (common tag : UInt256)
    (newLeaf : SHAMapAbstractNode) : SHAMapAbstractNode :=
  (((innerV2 64 (BaseUInt.zero 32) noChildren).setChild
      ((SHAMapNodeID.mk depth (keyPrefix depth common)).selectBranch common) node).setChild
      ((SHAMapNodeID.mk depth (keyPrefix depth tag)).selectBranch tag) newLeaf).setCommon
    depth (keyPrefix depth tag)

/-- `SHAMap::addGiveItem`: `false` if the key is present, otherwise the tree with a new leaf. -/
def addGiveItem (m : SHAMap) (item : SHAMapItem) (isTransaction hasMeta : Bool) : Bool × SHAMap :=
  let tag := item.tag
  let type := TNType.ofFlags isTransaction hasMeta
  match (walkTowardsKey tag m.root .root []).2 with
  | [] => (false, m)
  | (node, nodeID) :: stack =>
    if node.isLeaf && node.key == tag then (false, m)
    else if m.isV2 then
      match node with
      | innerV2 depth common _ =>
        if hasCommonPrefix depth common tag then
          (true, ⟨dirtyUp stack tag (node.setChild (nodeID.selectBranch tag) (leaf item type))⟩)
        else
          match stack with
          | [] => (false, m)
          | (parent, parentID) :: stack =>
            let newInner := splitV2 node (getCommonPrefix depth common tag) common tag (leaf item type)
            let parent := parent.setChild
              ((SHAMapNodeID.mk parent.depth (keyPrefix parent.depth tag)).selectBranch tag) newInner
            (true, ⟨dirtyUp ((parent, parentID) :: stack) tag newInner⟩)
      | leaf _ _ => (true, ⟨dirtyUp stack tag (setChildren node (leaf item type))⟩)
      | _ => (false, m)
    else
      match node with
      | .inner _ =>
        (true, ⟨dirtyUp stack tag (node.setChild (nodeID.selectBranch tag) (leaf item type))⟩)
      | leaf other _ =>
        let (nodeID, stack) := splitLoop tag other.tag 64 nodeID stack
        let bottom := ((SHAMapAbstractNode.inner noChildren).setChild (nodeID.selectBranch tag) (leaf item type)).setChild
          (nodeID.selectBranch other.tag) (leaf other type)
        (true, ⟨dirtyUp stack tag bottom⟩)
      | _ => (false, m)

/-- `SHAMap::updateGiveItem`: `false` if no leaf holds the key, otherwise the tree with that leaf's
item and type replaced. When `setItem` reports an unchanged hash the source skips `dirtyUp`; the
rebuilt path then holds the same leaf up to a hash collision, so it is always rebuilt here. -/
def updateGiveItem (m : SHAMap) (item : SHAMapItem) (isTransaction hasMeta : Bool) : Bool × SHAMap :=
  let tag := item.tag
  match (walkTowardsKey tag m.root .root []).2 with
  | [] => (false, m)
  | (node, _) :: stack =>
    match node with
    | leaf it _ =>
      if it.tag = tag then
        (true, ⟨dirtyUp stack tag (leaf item (TNType.ofFlags isTransaction hasMeta))⟩)
      else (false, m)
    | _ => (false, m)

/-- `SHAMap::findKey`: the leaf where the walk ends, if it holds the key. -/
def findKey (m : SHAMap) (id : UInt256) : Option (SHAMapItem × TNType) :=
  match (walkTowardsKey id m.root .root []).1 with
  | some (item, type) => if item.tag = id then some (item, type) else none
  | none => none

def hasItem (m : SHAMap) (id : UInt256) : Bool := (m.findKey id).isSome

def peekItem (m : SHAMap) (id : UInt256) : Option SHAMapItem := (m.findKey id).map Prod.fst

/-- `SHAMap::getHash`: the root's hash. -/
def getHash (sha512Half : Blob → UInt256) (m : SHAMap) : UInt256 := m.root.getNodeHash sha512Half

/-- The updates a map takes. -/
inductive Op where
  | addItem (item : SHAMapItem) (isTransaction hasMeta : Bool)
  | delItem (id : UInt256)
  | updateItem (item : SHAMapItem) (isTransaction hasMeta : Bool)

/-- Apply one update, returning what it returned and the new map. -/
def apply (m : SHAMap) : Op → Bool × SHAMap
  | .addItem item isTransaction hasMeta => m.addGiveItem item isTransaction hasMeta
  | .delItem id => m.delItem id
  | .updateItem item isTransaction hasMeta => m.updateGiveItem item isTransaction hasMeta

/-- The map after a sequence of updates. -/
def run (m : SHAMap) (ops : List Op) : SHAMap := ops.foldl (fun m op => (m.apply op).2) m

end SHAMap

end Ripple
