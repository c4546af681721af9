import ChainSqld.SHAMap.KeyOrder
import ChainSqld.Lib.OrdMap
import ChainSqld.SHAMap.Refinement

/-!
# Iterating over a SHAMap

`SHAMap::const_iterator` goes through the leaves with a stack of `(node, position)` frames, the
leaf on top. `peekFirstItem` goes down from the root to the first leaf (`firstBelow`, which
pushes every node it passes); `operator++` (`peekNextItem`) pops the leaf and, from the deepest
frame on, looks for a non-empty branch after the one the key takes, going down it to its first
leaf; `upper_bound` starts from the stack of a walk towards any key and looks in each frame for
the first branch that can hold a larger key.

In a v1 map `firstBelow` records a node it goes through with the child position of the frame
above in the branch given as its argument, not the branch it took; only the depth of a position
is read later (`selectBranch`), and that is right whichever branch is recorded.

* `Visits c l`: the iterator `c` goes on to visit exactly the items `l`, and then stops;
* `begin_visits`: from `begin()` an iterator visits the leaves of the map in branch order, which
  is increasing key order (`Invariants.ascending`);
* `upperBound_visits`: from `upper_bound(id)` it visits the leaves with a key above `id`;
* `itemsFrom_of_visits`: running `operator++` until `end()`, with enough fuel, gives that list.
-/

namespace Ripple

namespace SHAMap

open SHAMapAbstractNode Prefix

/-! ## The iterator -/

/-- The loop `for (i = start; i < 16; ++i) if (!inner->isEmptyBranch (i))`: the first branch from
`start` on that holds a node. -/
def branchFrom (node : SHAMapAbstractNode) (start : Nat) : Option (Fin 16) :=
  (List.finRange 16).find? fun i => decide (start ≤ i.val) && !node.isEmptyBranch i

/-- The position `firstBelow` records for an inner node: the root's on an empty stack; below a
frame, the node's own depth and prefix in a v2 map, and in a v1 map the child position of the
frame on top in branch `branch`. -/
def firstBelowID (isv2 : Bool) (branch : Fin 16) (node : SHAMapAbstractNode) : SharedPtrNodeStack → SHAMapNodeID
  | [] => .root
  | (_, top) :: _ => if isv2 then ⟨node.depth, node.key⟩ else top.getChildNodeID branch

/-- `SHAMap::firstBelow`: the first leaf at or below `node`, pushing each node on the way, the leaf
at position `(64, key)`; no leaf if an inner node on the way has no branch. -/
def firstBelow (isv2 : Bool) (branch : Fin 16) :
    SHAMapAbstractNode → SharedPtrNodeStack → Option (SHAMapItem × TNType) × SharedPtrNodeStack
  | leaf it ty, stack => (some (it, ty), (leaf it ty, ⟨64, it.tag⟩) :: stack)
  | .inner ch, stack =>
    let stack := (.inner ch, firstBelowID isv2 branch (.inner ch) stack) :: stack
    match branchFrom (.inner ch) 0 with
    | some i => firstBelow isv2 branch (ch i) stack
    | none => (none, stack)
  | innerV2 d c ch, stack =>
    let stack := (innerV2 d c ch, firstBelowID isv2 branch (innerV2 d c ch) stack) :: stack
    match branchFrom (innerV2 d c ch) 0 with
    | some i => firstBelow isv2 branch (ch i) stack
    | none => (none, stack)
  | .empty, stack => (none, stack)

/-- Where an iterator stands: at a leaf, with the stack to go on from; at `end()`; or thrown out by
`SHAMapMissingNode`, when a branch leads to no leaf. -/
inductive Cursor where
  | item (x : SHAMapItem × TNType) (stack : SharedPtrNodeStack)
  | done
  | missing

/-- Going down branch `i` of `node`, whose frame is on top of `stack`, to its first leaf. -/
def descendFirst (isv2 : Bool) (node : SHAMapAbstractNode) (i : Fin 16) (stack : SharedPtrNodeStack) : Cursor :=
  match firstBelow isv2 i (node.getChild i) stack with
  | (some x, stack) => .item x stack
  | (none, _) => .missing

/-- The loop of `peekNextItem` once the leaf is popped: the first branch after the one `id` takes
in the frame on top that holds a node, and its first leaf; a frame without one is popped. -/
def nextItem (isv2 : Bool) (id : UInt256) : SharedPtrNodeStack → Cursor
  | [] => .done
  | (node, nodeID) :: stack =>
    match branchFrom node ((nodeID.selectBranch id).val + 1) with
    | some i => descendFirst isv2 node i ((node, nodeID) :: stack)
    | none => nextItem isv2 id stack

/-- `SHAMap::peekNextItem`: pop the leaf, then look for the next one. -/
def peekNextItem (m : SHAMap) (id : UInt256) (stack : SharedPtrNodeStack) : Cursor :=
  nextItem m.isV2 id stack.tail

/-- Branch `0` exists: the default argument of `firstBelow` is a branch. -/
theorem zero_lt_branches : 0 < 16 := by decide

/-- `SHAMap::peekFirstItem`: the first leaf below the root, or nothing and an empty stack. The
branch is the default argument `0` of `firstBelow`, written with a named proof so that the
definition does not depend on where the literal's proof is generated. -/
def peekFirstItem (m : SHAMap) : Option (SHAMapItem × TNType) × SharedPtrNodeStack :=
  match firstBelow m.isV2 ⟨0, zero_lt_branches⟩ m.root [] with
  | (none, _) => (none, [])
  | r => r

/-- `SHAMap::begin`. -/
def begin (m : SHAMap) : Cursor :=
  match m.peekFirstItem with
  | (some x, stack) => .item x stack
  | (none, _) => .done

/-- The items an iterator visits from `c` on, `operator++` after each, until `end()`; `none` if an
increment throws or the fuel runs out. -/
def itemsFrom (m : SHAMap) : Nat → Cursor → Option (List (SHAMapItem × TNType))
  | _, .done => some []
  | _, .missing => none
  | 0, .item _ _ => none
  | fuel + 1, .item x stack => (m.itemsFrom fuel (m.peekNextItem x.1.tag stack)).map (x :: ·)

/-- The first branch `upper_bound` tries in an inner frame: the one after the branch of `id`; in
a v2 map, at a node whose prefix `id` does not share, every branch if `id` is below the prefix
and none if it is above. -/
def upperStart (isv2 : Bool) (id : UInt256) (node : SHAMapAbstractNode) (nodeID : SHAMapNodeID) : Nat :=
  if isv2 then
    if hasCommonPrefix node.depth node.key id then (nodeID.selectBranch id).val + 1
    else if id < node.key then 0 else 16
  else (nodeID.selectBranch id).val + 1

/-- The loop of `upper_bound` over a stack: a leaf above `id` is the answer; an inner frame gives
the first leaf of its first non-empty branch from `upperStart`; a frame with neither is popped. -/
def upperLoop (isv2 : Bool) (id : UInt256) : SharedPtrNodeStack → Cursor
  | [] => .done
  | (leaf it ty, nodeID) :: stack =>
    if id < it.tag then .item (it, ty) ((leaf it ty, nodeID) :: stack) else upperLoop isv2 id stack
  | (node, nodeID) :: stack =>
    match branchFrom node (upperStart isv2 id node nodeID) with
    | some i => descendFirst isv2 node i ((node, nodeID) :: stack)
    | none => upperLoop isv2 id stack

/-- `SHAMap::upper_bound`: the loop over the stack a walk towards `id` leaves. -/
def upperBound (m : SHAMap) (id : UInt256) : Cursor :=
  upperLoop m.isV2 id (walkTowardsKey id m.root .root []).2

/-! ## Branches from a start -/

/-- The leaves of the branches of `node` from `start` on. -/
def leavesFrom (node : SHAMapAbstractNode) (start : Nat) : List (SHAMapItem × TNType) :=
  (List.finRange 16).flatMap fun i => if start ≤ i.val then (node.getChild i).leaves else []

theorem leavesFrom_zero {node : SHAMapAbstractNode} (hn : node.isInner = true) :
    leavesFrom node 0 = node.leaves := by
  cases node <;> simp_all [leavesFrom, leaves, isInner]

theorem leavesFrom_of_le {node : SHAMapAbstractNode} {start : Nat} (h : 16 ≤ start) : leavesFrom node start = [] :=
  List.flatMap_eq_nil_iff.mpr fun i _ => if_neg (by omega)

theorem branchFrom_eq_none {node : SHAMapAbstractNode} {start : Nat} :
    branchFrom node start = none ↔ ∀ i : Fin 16, start ≤ i.val → node.getChild i = .empty := by
  rw [branchFrom, ← Fin.find?_eq_find?_finRange, Fin.find?_eq_none_iff]
  simp [isEmptyBranch]

/-- What `branchFrom` finds: a branch from `start` on that holds a node, and none between. -/
theorem branchFrom_eq_some {node : SHAMapAbstractNode} {start : Nat} {i : Fin 16} :
    branchFrom node start = some i ↔
      start ≤ i.val ∧ node.getChild i ≠ .empty ∧ ∀ j < i, start ≤ j.val → node.getChild j = .empty := by
  rw [branchFrom, ← Fin.find?_eq_find?_finRange, Fin.find?_eq_some_iff]
  simp [isEmptyBranch, isEmpty_eq_false_iff, and_assoc]

theorem leavesFrom_of_branchFrom_none {node : SHAMapAbstractNode} {start : Nat}
    (h : branchFrom node start = none) : leavesFrom node start = [] := by
  refine List.flatMap_eq_nil_iff.mpr fun i _ => ?_
  split_ifs with hs
  · rw [branchFrom_eq_none.mp h i hs, leaves_empty]
  · rfl

/-- The leaves from `start` on are those of the branch `branchFrom` finds, then those after it. -/
theorem leavesFrom_of_branchFrom_some {node : SHAMapAbstractNode} {start : Nat} {i : Fin 16}
    (h : branchFrom node start = some i) :
    leavesFrom node start = (node.getChild i).leaves ++ leavesFrom node (i.val + 1) := by
  obtain ⟨hs, -, hbefore⟩ := branchFrom_eq_some.mp h
  rw [leavesFrom, List.flatMap_split (List.pairwise_lt_finRange 16) (List.mem_finRange i)
    (g := fun j => (node.getChild j).leaves), if_pos hs]
  · rfl
  · intro j _ hj
    split_ifs with hsj
    · rw [hbefore j hj hsj, leaves_empty]
    · rfl
  · intro j _ hj
    exact if_pos (by have := Fin.lt_def.mp hj; omega)

/-! ## What the traversal needs of a tree -/

/-- The depth of the position a node gets below a frame at depth `d`: one deeper in a v1 map, the
node's own depth in a v2 map. -/
def childDepth (isv2 : Bool) (d : Nat) (c : SHAMapAbstractNode) : Nat := if isv2 then c.depth else d + 1

/-- An inner node of the map's version. -/
def IsInnerOf (isv2 : Bool) : SHAMapAbstractNode → Prop
  | .inner _ => isv2 = false
  | innerV2 _ _ _ => isv2 = true
  | _ => False

theorem IsInnerOf.isInner {isv2 : Bool} {n : SHAMapAbstractNode} (h : IsInnerOf isv2 n) : n.isInner = true := by
  cases n <;> simp_all [IsInnerOf, SHAMapAbstractNode.isInner]

/-- A node at a position of depth `d` as the traversal sees it: a leaf, or an inner node of the
map's version that routes its leaves by `d`, whose leaves share its prefix in a v2 map, and each of
whose non-empty branches holds a leaf and such a node at the depth of its own position. -/
inductive Ordered (isv2 : Bool) : Nat → SHAMapAbstractNode → Prop
  | leaf {d : Nat} {it : SHAMapItem} {ty : TNType} : Ordered isv2 d (.leaf it ty)
  | node {d : Nat} {n : SHAMapAbstractNode} (hk : IsInnerOf isv2 n) (hr : Routed d n.getChild)
      (hd : isv2 = true → n.depth = d)
      (hc : isv2 = true → ∀ x ∈ n.leaves, AgreeBelow d x.1.tag.nibble n.key.nibble)
      (hne : ∀ b, n.getChild b ≠ .empty → (n.getChild b).leaves ≠ [])
      (hch : ∀ b, n.getChild b ≠ .empty → Ordered isv2 (childDepth isv2 d (n.getChild b)) (n.getChild b)) :
      Ordered isv2 d n

theorem Ordered.routed {isv2 : Bool} {d : Nat} {n : SHAMapAbstractNode} (h : Ordered isv2 d n) :
    Routed d n.getChild := by
  cases h with
  | leaf => exact fun _ _ hx => absurd hx List.not_mem_nil
  | node _ hr => exact hr

/-- Every branch of an ordered node that holds a node holds a leaf. -/
theorem Ordered.leaves_ne_nil {isv2 : Bool} {d : Nat} {n : SHAMapAbstractNode} (h : Ordered isv2 d n)
    {i : Fin 16} (hi : n.getChild i ≠ .empty) : (n.getChild i).leaves ≠ [] := by
  cases h with
  | leaf => exact absurd rfl hi
  | node _ _ _ _ hne _ => exact hne i hi

/-- A stack below the node `t`, read from the top: each frame holds the node above it in the branch
of `k`, and is an ordered node at the depth of its position. -/
def Chain (isv2 : Bool) (k : UInt256) : SHAMapAbstractNode → SharedPtrNodeStack → Prop
  | _, [] => True
  | t, (n, nid) :: S => n.getChild (nid.selectBranch k) = t ∧ Ordered isv2 nid.mDepth n ∧ Chain isv2 k n S

/-- The leaves after the key `k` that a stack has still to visit: in each frame, those of the
branches after the one `k` takes. -/
def after (k : UInt256) (S : SharedPtrNodeStack) : List (SHAMapItem × TNType) :=
  S.flatMap fun f => leavesFrom f.1 ((f.2.selectBranch k).val + 1)

@[simp] theorem after_nil (k : UInt256) : after k [] = [] := rfl

@[simp] theorem after_cons (k : UInt256) (f : SHAMapAbstractNode × SHAMapNodeID) (S : SharedPtrNodeStack) :
    after k (f :: S) = leavesFrom f.1 ((f.2.selectBranch k).val + 1) ++ after k S := rfl

@[simp] theorem after_append (k : UInt256) (S S' : SharedPtrNodeStack) : after k (S ++ S') = after k S ++ after k S' :=
  List.flatMap_append

/-- A chain towards `k` below `t` is a chain towards the key of any leaf below `t`, with the same
leaves after it: every frame sends that key down the same branch. -/
theorem Chain.retarget {isv2 : Bool} {k : UInt256} : ∀ {t : SHAMapAbstractNode} {S : SharedPtrNodeStack},
    Chain isv2 k t S → ∀ {y : SHAMapItem × TNType}, y ∈ t.leaves →
      Chain isv2 y.1.tag t S ∧ after y.1.tag S = after k S
  | _, [], _, _, _ => ⟨trivial, rfl⟩
  | _, (n, nid) :: _, ⟨hn, ho, hS⟩, y, hy => by
    rw [← hn] at hy
    have hb : nid.selectBranch y.1.tag = nid.selectBranch k := ho.routed _ y hy
    obtain ⟨hS', hafter⟩ := Chain.retarget hS (mem_leaves_of_getChild hy)
    exact ⟨⟨hb ▸ hn, ho, hS'⟩, by rw [after_cons, after_cons, hb, hafter]⟩

/-! ## Going down to the first leaf -/

section FirstBelow

variable {isv2 : Bool} {branch : Fin 16} {n : SHAMapAbstractNode} {S : SharedPtrNodeStack}

theorem firstBelow_of_branchFrom_some (hn : n.isInner = true) {i : Fin 16} (h : branchFrom n 0 = some i) :
    firstBelow isv2 branch n S =
      firstBelow isv2 branch (n.getChild i) ((n, firstBelowID isv2 branch n S) :: S) := by
  cases n <;> simp_all [isInner, firstBelow]

theorem firstBelow_of_branchFrom_none (hn : n.isInner = true) (h : branchFrom n 0 = none) :
    firstBelow isv2 branch n S = (none, (n, firstBelowID isv2 branch n S) :: S) := by
  cases n <;> simp_all [isInner, firstBelow]

/-- **`firstBelow` finds the first leaf.** Below an ordered node with a leaf, recorded at the depth
of its position, it returns the first leaf and pushes a path to it whose branches after the path
hold the other leaves, and that continues any chain below the node. -/
theorem firstBelow_spec {d : Nat} {t : SHAMapAbstractNode} (ht : Ordered isv2 d t) :
    t.leaves ≠ [] → ∀ S, (t.isInner = true → (firstBelowID isv2 branch t S).mDepth = d) →
      ∃ x F, firstBelow isv2 branch t S = (some x, (leaf x.1 x.2, ⟨64, x.1.tag⟩) :: (F ++ S)) ∧
        x :: after x.1.tag F = t.leaves ∧
        ∀ S', Chain isv2 x.1.tag t S' → Chain isv2 x.1.tag (leaf x.1 x.2) (F ++ S') := by
  induction ht with
  | leaf => exact fun _ _ _ => ⟨(_, _), [], rfl, rfl, fun _ h => h⟩
  | @node d n hk hr hd hc hne hch ih =>
    intro hleaves S hid
    have hn := hk.isInner
    -- the first branch that holds a node
    obtain ⟨i, hi⟩ : ∃ i, branchFrom n 0 = some i := Option.ne_none_iff_exists'.mp fun h =>
      hleaves (by rw [← leavesFrom_zero hn, leavesFrom_of_branchFrom_none h])
    have hi' := (branchFrom_eq_some.mp hi).2.1
    let f := (n, firstBelowID isv2 branch n S)
    have hfd : f.2.mDepth = d := hid hn
    have hid' : (n.getChild i).isInner = true →
        (firstBelowID isv2 branch (n.getChild i) (f :: S)).mDepth = childDepth isv2 d (n.getChild i) := by
      intro _
      cases isv2 <;> simp [firstBelowID, childDepth, hfd]
    obtain ⟨x, F, hrun, hafter, hchain⟩ := ih i hi' (hne i hi') (f :: S) hid'
    have hx : x ∈ (n.getChild i).leaves := hafter ▸ List.mem_cons_self
    -- the frame of `n` sends the first leaf down branch `i`
    have hsel : f.2.selectBranch x.1.tag = i := by
      show x.1.tag.nibble f.2.mDepth = i
      rw [hfd]
      exact hr i x hx
    refine ⟨x, F ++ [f], ?_, ?_, fun S' hS' => ?_⟩
    · rw [firstBelow_of_branchFrom_some hn hi, hrun, List.append_assoc, List.singleton_append]
    · rw [after_append, after_cons, after_nil, List.append_nil, hsel, ← List.cons_append, hafter,
        ← leavesFrom_of_branchFrom_some hi, leavesFrom_zero hn]
    · have := hchain (f :: S') ⟨by rw [hsel], by rw [hfd]; exact .node hk hr hd hc hne hch, hS'⟩
      rwa [List.append_assoc, List.singleton_append]

end FirstBelow

/-! ## Cursors and what they visit -/

/-- An iterator at the leaf `x`: the leaf's frame on top of a chain of frames towards its key. -/
def AtLeaf (isv2 : Bool) (x : SHAMapItem × TNType) (S : SharedPtrNodeStack) : Prop :=
  ∃ nid F, S = (leaf x.1 x.2, nid) :: F ∧ Chain isv2 x.1.tag (leaf x.1 x.2) F

/-- The iterator `c` goes on to visit exactly `l`: it is at the first item of `l`, with a stack
whose frames hold the rest, or at `end()` when `l` is empty. -/
def Visits (isv2 : Bool) : Cursor → List (SHAMapItem × TNType) → Prop
  | .done, [] => True
  | .item x S, y :: ys => x = y ∧ AtLeaf isv2 x S ∧ after x.1.tag S.tail = ys
  | _, _ => False

section Visits

variable {isv2 : Bool}

/-- Going down a non-empty branch `i` of an ordered frame on top of a chain towards `k`: the
iterator then visits that branch, the later branches of the frame, and what the frames below have
after `k`. -/
theorem descendFirst_visits {k : UInt256} {n : SHAMapAbstractNode} {nid : SHAMapNodeID}
    {S : SharedPtrNodeStack} {i : Fin 16} (ho : Ordered isv2 nid.mDepth n) (hS : Chain isv2 k n S)
    (hi : n.getChild i ≠ .empty) :
    Visits isv2 (descendFirst isv2 n i ((n, nid) :: S))
      ((n.getChild i).leaves ++ leavesFrom n (i.val + 1) ++ after k S) := by
  cases ho with
  | leaf => exact absurd rfl hi
  | node _ hr _ _ hne hch =>
    have hid : (n.getChild i).isInner = true →
        (firstBelowID isv2 i (n.getChild i) ((n, nid) :: S)).mDepth = childDepth isv2 nid.mDepth (n.getChild i) := by
      intro _
      cases isv2 <;> simp [firstBelowID, childDepth]
    obtain ⟨x, F, hrun, hafter, hchain⟩ := firstBelow_spec (hch i hi) (hne i hi) ((n, nid) :: S) hid
    have hx : x ∈ (n.getChild i).leaves := hafter ▸ List.mem_cons_self
    have hsel : nid.selectBranch x.1.tag = i := hr i x hx
    obtain ⟨hS', hafterS⟩ := hS.retarget (mem_leaves_of_getChild hx)
    have ho : Ordered isv2 nid.mDepth n := .node ‹_› hr ‹_› ‹_› hne hch
    simp only [descendFirst, hrun]
    rw [← hafter]
    refine ⟨rfl, ⟨_, _, rfl, hchain _ ⟨by rw [hsel], ho, hS'⟩⟩, ?_⟩
    rw [List.tail_cons, after_append, after_cons, hsel, hafterS]
    simp

/-- **One step of `peekNextItem`.** On a chain towards `k`, the loop visits what the stack has
after `k`. -/
theorem nextItem_visits {k : UInt256} : ∀ {t : SHAMapAbstractNode} {S : SharedPtrNodeStack},
    Chain isv2 k t S → Visits isv2 (nextItem isv2 k S) (after k S)
  | _, [], _ => trivial
  | _, (n, nid) :: S, ⟨_, ho, hS⟩ => by
    rw [after_cons]
    cases hb : branchFrom n ((nid.selectBranch k).val + 1) with
    | none =>
      rw [leavesFrom_of_branchFrom_none hb, List.nil_append]
      simpa only [nextItem, hb] using nextItem_visits hS
    | some i =>
      rw [leavesFrom_of_branchFrom_some hb]
      simpa only [nextItem, hb, List.append_assoc] using
        descendFirst_visits ho hS (branchFrom_eq_some.mp hb).2.1

/-- After visiting its item, an iterator goes on to visit the rest. -/
theorem Visits.next {x : SHAMapItem × TNType} {S : SharedPtrNodeStack} {l : List (SHAMapItem × TNType)}
    (h : Visits isv2 (.item x S) (x :: l)) : Visits isv2 (nextItem isv2 x.1.tag S.tail) l := by
  obtain ⟨-, ⟨nid, F, rfl, hF⟩, hl⟩ := h
  rw [← hl]
  exact nextItem_visits hF

end Visits

/-- **Iterating to the end.** An iterator that visits `l` gives `l`, given more fuel than `l` has
items. -/
theorem itemsFrom_of_visits (m : SHAMap) : ∀ (fuel : Nat) {c : Cursor} {l : List (SHAMapItem × TNType)},
    Visits m.isV2 c l → l.length < fuel → m.itemsFrom fuel c = some l
  | 0, _, _, _, hl => absurd hl (Nat.not_lt_zero _)
  | fuel + 1, c, l, h, hl => by
    match c, l, h with
    | .done, [], _ => rfl
    | .item x S, y :: ys, h =>
      obtain rfl : x = y := h.1
      rw [itemsFrom, peekNextItem, itemsFrom_of_visits m fuel h.next (by simpa using hl)]
      rfl

/-! ## Canonical maps are ordered -/

theorem WF1.ordered {d : Nat} {t : SHAMapAbstractNode} (h : WF1 d t) : t ≠ .empty → Ordered false d t := by
  induction h with
  | empty => exact fun ht => absurd rfl ht
  | leaf => exact fun _ => .leaf
  | inner hch hr _ ih =>
    exact fun _ => .node rfl hr (absurd · Bool.false_ne_true) (absurd · Bool.false_ne_true)
      (fun b hb => (hch b).leaves_ne_nil hb) ih

theorem WF2.ordered {t : SHAMapAbstractNode} (h : WF2 t) : t ≠ .empty → Ordered true t.depth t := by
  induction h with
  | empty => exact fun ht => absurd rfl ht
  | leaf => exact fun _ => .leaf
  | @innerV2 d c ch hch hr hc _ ih =>
    -- every leaf starts with the node's prefix
    have hag : ∀ x ∈ (innerV2 d c ch).leaves, AgreeBelow d x.1.tag.nibble (innerV2 d c ch).key.nibble := by
      intro x hx i hi
      show x.1.tag.nibble i = c.nibble i
      rw [← hc x hx, nibble_keyPrefix, if_pos hi]
    exact fun _ => .node rfl hr (fun _ => rfl) (fun _ => hag) (fun b hb => (hch b).leaves_ne_nil hb) ih

theorem Invariants.ordered {m : SHAMap} (h : m.Invariants) : Ordered m.isV2 0 m.root := by
  rcases h with ⟨ch, hroot, hw, hr⟩ | ⟨ch, hroot, hw, hr⟩
  · rw [isV2, hroot]
    exact .node rfl hr (absurd · Bool.false_ne_true) (absurd · Bool.false_ne_true)
      (fun b hb => (hw b).leaves_ne_nil hb) fun b hb => WF1.ordered (hw b) hb
  · rw [isV2, hroot]
    exact .node rfl hr (fun _ => rfl) (fun _ _ _ => AgreeBelow.zero _ _)
      (fun b hb => (hw b).leaves_ne_nil hb) fun b hb => WF2.ordered (hw b) hb

theorem Invariants.isInner {m : SHAMap} (h : m.Invariants) : m.root.isInner = true := by
  rcases h with ⟨ch, hroot, -⟩ | ⟨ch, hroot, -⟩ <;> rw [hroot] <;> rfl

/-- **`begin()` visits every leaf**, in branch order. -/
theorem begin_visits {m : SHAMap} (h : m.Invariants) : Visits m.isV2 m.begin m.root.leaves := by
  have ho := h.ordered
  by_cases hl : m.root.leaves = []
  · -- a root without leaves has no branch that holds a node
    have hb : branchFrom m.root 0 = none := by
      refine branchFrom_eq_none.mpr fun i _ => by_contra fun hi => ?_
      obtain ⟨x, hx⟩ := List.exists_mem_of_ne_nil _ (ho.leaves_ne_nil hi)
      exact List.not_mem_nil (hl ▸ mem_leaves_of_getChild hx)
    simp only [begin, peekFirstItem, firstBelow_of_branchFrom_none h.isInner hb, hl]
    trivial
  · obtain ⟨x, F, hrun, hafter, hchain⟩ := @firstBelow_spec _ ⟨0, zero_lt_branches⟩ _ _ ho hl [] fun _ => rfl
    simp only [begin, peekFirstItem, hrun]
    rw [← hafter]
    exact ⟨rfl, ⟨_, F ++ [], rfl, hchain [] trivial⟩, by simp⟩

/-! ## `upper_bound` -/

/-- What `upper_bound` takes from a frame: a leaf above `id`, or the leaves of the branches of an
inner node from `upperStart` on. -/
def upperFrame (isv2 : Bool) (id : UInt256) (f : SHAMapAbstractNode × SHAMapNodeID) : List (SHAMapItem × TNType) :=
  match f.1 with
  | leaf it ty => if id < it.tag then [(it, ty)] else []
  | n => leavesFrom n (upperStart isv2 id n f.2)

/-- A stack `upper_bound` can work on: an ordered frame on top of frames the walk passed through,
each holding the one above in the branch of `id`, in which `upper_bound` starts after that branch. -/
def UpperStack (isv2 : Bool) (id : UInt256) : SharedPtrNodeStack → Prop
  | [] => True
  | (n, nid) :: F => Ordered isv2 nid.mDepth n ∧ Chain isv2 id n F ∧
      ∀ f ∈ F, upperStart isv2 id f.1 f.2 = (f.2.selectBranch id).val + 1

section UpperBound

variable {isv2 : Bool} {id : UInt256}

theorem isLeaf_eq_false_of_getChild {n : SHAMapAbstractNode} {b : Fin 16} (h : n.getChild b ≠ .empty) :
    n.isLeaf = false := by
  cases n <;> simp_all [getChild, isLeaf]

theorem Ordered.ne_empty {d : Nat} {n : SHAMapAbstractNode} (h : Ordered isv2 d n) : n ≠ .empty := by
  cases h with
  | leaf => simp
  | node hk => rintro rfl; exact hk

theorem upperLoop_of_isLeaf_eq_false {n : SHAMapAbstractNode} {nid : SHAMapNodeID} {S : SharedPtrNodeStack}
    (hn : n.isLeaf = false) :
    upperLoop isv2 id ((n, nid) :: S) =
      match branchFrom n (upperStart isv2 id n nid) with
      | some i => descendFirst isv2 n i ((n, nid) :: S)
      | none => upperLoop isv2 id S := by
  cases n <;> simp_all [isLeaf, upperLoop]

theorem upperFrame_of_isLeaf_eq_false {n : SHAMapAbstractNode} {nid : SHAMapNodeID} (hn : n.isLeaf = false) :
    upperFrame isv2 id (n, nid) = leavesFrom n (upperStart isv2 id n nid) := by
  cases n <;> simp_all [isLeaf, upperFrame]

/-- In the frames the walk passed through, `upper_bound` takes what the iterator has after `id`. -/
theorem flatMap_upperFrame : ∀ {t : SHAMapAbstractNode} {S : SharedPtrNodeStack}, Chain isv2 id t S → t ≠ .empty →
    (∀ f ∈ S, upperStart isv2 id f.1 f.2 = (f.2.selectBranch id).val + 1) →
    S.flatMap (upperFrame isv2 id) = after id S
  | _, [], _, _, _ => rfl
  | _, (n, nid) :: S, ⟨hn, _, hS⟩, ht, hpass => by
    have hleaf : n.isLeaf = false := isLeaf_eq_false_of_getChild (hn ▸ ht)
    have hne : n ≠ .empty := by rintro rfl; exact ht hn.symm
    rw [List.flatMap_cons, upperFrame_of_isLeaf_eq_false hleaf, hpass _ List.mem_cons_self,
      flatMap_upperFrame hS hne fun f hf => hpass f (List.mem_cons_of_mem _ hf), after_cons]

/-- The frames below the top of a stack for `upper_bound` make one themselves. -/
theorem upperStack_of_chain : ∀ {t : SHAMapAbstractNode} {S : SharedPtrNodeStack}, Chain isv2 id t S →
    (∀ f ∈ S, upperStart isv2 id f.1 f.2 = (f.2.selectBranch id).val + 1) → UpperStack isv2 id S
  | _, [], _, _ => trivial
  | _, (_, _) :: _, ⟨_, ho, hS⟩, hpass => ⟨ho, hS, fun f hf => hpass f (List.mem_cons_of_mem _ hf)⟩

/-- **The loop of `upper_bound`** visits what the frames of its stack offer, top first. -/
theorem upperLoop_visits : ∀ {W : SharedPtrNodeStack}, UpperStack isv2 id W →
    Visits isv2 (upperLoop isv2 id W) (W.flatMap (upperFrame isv2 id))
  | [], _ => trivial
  | (n, nid) :: F, ⟨ho, hF, hpass⟩ => by
    have hrest := flatMap_upperFrame hF ho.ne_empty hpass
    have hF' := upperStack_of_chain hF hpass
    rw [List.flatMap_cons]
    by_cases hl : n.isLeaf = true
    · obtain ⟨it, ty, rfl⟩ : ∃ it ty, n = leaf it ty := by cases n <;> simp_all [isLeaf]
      by_cases hlt : id < it.tag
      · -- the leaf where the walk stopped is above `id`
        obtain ⟨hF'', hafter⟩ := hF.retarget (y := (it, ty)) (List.mem_singleton_self _)
        simp only [upperLoop, upperFrame, hlt, if_true, List.singleton_append, hrest]
        exact ⟨rfl, ⟨nid, F, rfl, hF''⟩, by rw [List.tail_cons, hafter]⟩
      · simp only [upperLoop, upperFrame, hlt, if_false, List.nil_append]
        exact upperLoop_visits hF'
    · have hl' : n.isLeaf = false := by simpa using hl
      rw [upperLoop_of_isLeaf_eq_false hl', upperFrame_of_isLeaf_eq_false hl']
      cases hb : branchFrom n (upperStart isv2 id n nid) with
      | none =>
        rw [leavesFrom_of_branchFrom_none hb, List.nil_append]
        exact upperLoop_visits hF'
      | some i =>
        rw [leavesFrom_of_branchFrom_some hb, hrest]
        exact descendFirst_visits ho hF (branchFrom_eq_some.mp hb).2.1

/-- The leaves of an inner node above `id`, when all of them agree with `id` below the node's
depth: those of the branch of `id` above it, then every leaf of the later branches. -/
theorem filter_leaves_of_agree {n : SHAMapAbstractNode} {d : Nat} (hn : n.isInner = true)
    (hr : Routed d n.getChild) (hag : ∀ x ∈ n.leaves, AgreeBelow d x.1.tag.nibble id.nibble) :
    n.leaves.filter (fun x => id < x.1.tag) =
      (n.getChild (id.nibble d)).leaves.filter (fun x => id < x.1.tag) ++ leavesFrom n ((id.nibble d).val + 1) := by
  rw [← leavesFrom_zero hn, leavesFrom, List.filter_flatMap,
    List.flatMap_split (List.pairwise_lt_finRange 16) (List.mem_finRange (id.nibble d))
      (g := fun i => (n.getChild i).leaves)]
  · simp only [Nat.zero_le, if_true, leavesFrom, Fin.lt_def, Nat.succ_le_iff]
  · -- the leaves of an earlier branch are below `id`
    intro i _ hi
    refine List.filter_eq_nil_iff.mpr fun x hx => ?_
    simp only [Nat.zero_le, if_true] at hx
    have hlt := BaseUInt.lt_of_agreeBelow (hag x (mem_leaves_of_getChild hx)) (by rw [hr i x hx]; exact hi)
    simpa using BaseUInt.lt_asymm hlt
  · -- the leaves of a later branch are above it
    intro i _ hi
    simp only [Nat.zero_le, if_true]
    refine List.filter_eq_self.mpr fun x hx => ?_
    have hlt := BaseUInt.lt_of_agreeBelow (hag x (mem_leaves_of_getChild hx)).symm (by rw [hr i x hx]; exact hi)
    simpa using hlt

/-- Below a node whose prefix `id` does not share, `id` is below a leaf exactly when it is below
the prefix: the first nibble where they part decides both. -/
theorem lt_iff_of_not_agree {d : Nat} {c k : UInt256} (hk : AgreeBelow d k.nibble c.nibble)
    (hne : ¬AgreeBelow d c.nibble id.nibble) : id < k ↔ id < c := by
  -- past the 64 nibbles of a key both are zero, so they part before the 64th
  have hm : ¬AgreeBelow (min d 64) id.nibble c.nibble := by
    intro h
    apply hne
    intro i hi
    by_cases h64 : i < 64
    · exact (h i (by omega)).symm
    · rw [BaseUInt.nibble_of_le c (by omega), BaseUInt.nibble_of_le id (by omega)]
  have hk' : AgreeBelow (min d 64) k.nibble c.nibble := hk.mono (by omega)
  rw [BaseUInt.lt_iff_lexBelow, BaseUInt.lt_iff_lexBelow,
    LexBelow.of_not_agree (by omega : min d 64 ≤ 2 * 32) (fun h => hm (h.trans hk')),
    LexBelow.of_not_agree (by omega : min d 64 ≤ 2 * 32) hm]
  exact ⟨LexBelow.congr_right hk', LexBelow.congr_right hk'.symm⟩

/-- What the walk towards `id` from `t` at `nodeID` leaves for `upper_bound`. -/
structure WalkReady (isv2 : Bool) (id : UInt256) (t : SHAMapAbstractNode) (nodeID : SHAMapNodeID) : Prop where
  /-- the walk stops at an ordered frame, -/
  stop : Ordered isv2 (walkStop id t nodeID).2.mDepth (walkStop id t nodeID).1
  /-- over frames that continue any chain towards `id` below `t`, -/
  chain : ∀ S, Chain isv2 id t S → Chain isv2 id (walkStop id t nodeID).1 (walkAbove id t nodeID ++ S)
  /-- in each of which `upper_bound` starts after the branch of `id`; -/
  pass : ∀ f ∈ walkAbove id t nodeID, upperStart isv2 id f.1 f.2 = (f.2.selectBranch id).val + 1
  /-- and the frames offer the leaves of `t` above `id`. -/
  frames : (walkStop id t nodeID :: walkAbove id t nodeID).flatMap (upperFrame isv2 id) =
    t.leaves.filter fun x => id < x.1.tag

/-- The walk stopped at `t` itself. -/
theorem WalkReady.here {t : SHAMapAbstractNode} {nodeID : SHAMapNodeID}
    (hstop : walkStop id t nodeID = (t, nodeID)) (habove : walkAbove id t nodeID = [])
    (ho : Ordered isv2 nodeID.mDepth t)
    (hframe : upperFrame isv2 id (t, nodeID) = t.leaves.filter fun x => id < x.1.tag) :
    WalkReady isv2 id t nodeID where
  stop := by rw [hstop]; exact ho
  chain := fun S hS => by rw [hstop, habove]; exact hS
  pass := by rw [habove]; simp
  frames := by rw [hstop, habove, List.flatMap_singleton, hframe]

/-- The walk went down the branch of `id` from `t` to `c`. -/
theorem WalkReady.descend {t c : SHAMapAbstractNode} {nodeID cID : SHAMapNodeID}
    (hc : t.getChild (nodeID.selectBranch id) = c) (hce : c ≠ .empty) (ho : Ordered isv2 nodeID.mDepth t)
    (hstart : upperStart isv2 id t nodeID = (nodeID.selectBranch id).val + 1)
    (hstop : walkStop id t nodeID = walkStop id c cID)
    (habove : walkAbove id t nodeID = walkAbove id c cID ++ [(t, nodeID)])
    (hfilter : t.leaves.filter (fun x => id < x.1.tag) =
      c.leaves.filter (fun x => id < x.1.tag) ++ leavesFrom t ((nodeID.selectBranch id).val + 1))
    (ih : WalkReady isv2 id c cID) : WalkReady isv2 id t nodeID where
  stop := by rw [hstop]; exact ih.stop
  chain := fun S hS => by
    rw [hstop, habove, List.append_assoc, List.singleton_append]
    exact ih.chain _ ⟨hc, ho, hS⟩
  pass := by
    rw [habove]
    intro f hf
    rcases List.mem_append.mp hf with hf | hf
    · exact ih.pass f hf
    · rw [List.mem_singleton.mp hf]
      exact hstart
  frames := by
    have hleaf : t.isLeaf = false := isLeaf_eq_false_of_getChild (hc ▸ hce)
    rw [hstop, habove, ← List.cons_append, List.flatMap_append, ih.frames, List.flatMap_singleton,
      upperFrame_of_isLeaf_eq_false hleaf, hstart, hfilter]

/-- A node of an ordered v2 tree is never a v1 inner node, which a v2 walk refuses to enter. -/
theorem Ordered.isV1Inner_eq_false {d : Nat} {n : SHAMapAbstractNode} (h : Ordered true d n) :
    isV1Inner n = false := by
  cases h with
  | leaf => rfl
  | node hk => cases n <;> simp_all [IsInnerOf, isV1Inner]

/-- A walk that stopped at a leaf: `upper_bound` takes it exactly when it is above `id`. -/
theorem upperFrame_leaf (it : SHAMapItem) (ty : TNType) (nodeID : SHAMapNodeID) :
    upperFrame isv2 id (leaf it ty, nodeID) = (leaf it ty).leaves.filter fun x => id < x.1.tag := by
  by_cases h : id < it.tag <;> simp [upperFrame, h]

/-- **The walk towards `id` leaves a stack for `upper_bound`** whose frames hold the leaves above
`id`. In a v1 map the walk only reaches nodes whose leaves agree with `id` above their depth; in a
v2 map the node's prefix says where its leaves stand. -/
theorem walkReady {d : Nat} {t : SHAMapAbstractNode} (ht : Ordered isv2 d t) :
    t ≠ .empty → ∀ nodeID : SHAMapNodeID, (t.isInner = true → nodeID.mDepth = d) →
      (isv2 = false → ∀ x ∈ t.leaves, AgreeBelow d x.1.tag.nibble id.nibble) → WalkReady isv2 id t nodeID := by
  induction ht with
  | @leaf d it ty =>
    exact fun _ nodeID _ _ => .here (walkStop_leaf it ty nodeID) (walkAbove_leaf it ty nodeID) .leaf
      (upperFrame_leaf it ty nodeID)
  | @node d n hk hr hd hc hne hch ih =>
    intro _ nodeID hdepth hA
    have ho : Ordered isv2 nodeID.mDepth n := by
      rw [hdepth hk.isInner]
      exact .node hk hr hd hc hne hch
    have hsel : nodeID.selectBranch id = id.nibble d := by
      show id.nibble nodeID.mDepth = _
      rw [hdepth hk.isInner]
    cases n with
    | empty => exact hk.elim
    | leaf => exact hk.elim
    | inner ch =>
      obtain rfl : isv2 = false := hk
      have hfilter := filter_leaves_of_agree rfl hr (hA rfl)
      rw [← hsel] at hfilter
      by_cases he : ch (nodeID.selectBranch id) = .empty
      · refine .here (walkStop_inner_of_empty he) (walkAbove_inner_of_empty he) ho ?_
        rw [upperFrame_of_isLeaf_eq_false rfl, hfilter]
        simp [upperStart, he]
      · -- the leaves of the branch agree with `id` one nibble further
        have hA' : ∀ x ∈ (ch (nodeID.selectBranch id)).leaves, AgreeBelow (d + 1) x.1.tag.nibble id.nibble :=
          fun x hx => agreeBelow_succ_iff.mpr
            ⟨hA rfl x (mem_leaves_inner.mpr ⟨_, hx⟩), (hr _ x hx).trans hsel⟩
        exact .descend rfl he ho rfl (walkStop_inner_of_ne he) (walkAbove_inner_of_ne he) hfilter
          (ih _ he he _ (fun _ => by simp [childDepth, hdepth rfl]) fun _ => hA')
    | innerV2 d' c ch =>
      obtain rfl : isv2 = true := hk
      obtain rfl : d' = d := hd rfl
      by_cases hp : hasCommonPrefix d' c id = true
      · -- the key shares the prefix, so every leaf agrees with it above the node's depth
        have hag : ∀ x ∈ (innerV2 d' c ch).leaves, AgreeBelow d' x.1.tag.nibble id.nibble :=
          fun x hx => (hc rfl x hx).trans ((hasCommonPrefix_iff d' c id).mp hp)
        have hfilter := filter_leaves_of_agree rfl hr hag
        rw [← hsel] at hfilter
        have hstart : upperStart true id (innerV2 d' c ch) nodeID = (nodeID.selectBranch id).val + 1 := by
          simp [upperStart, depth, key, hp]
        by_cases he : ch (nodeID.selectBranch id) = .empty
        · have hnd : ¬Descends id d' c ch nodeID := fun h => h.2.1 he
          refine .here (walkStop_innerV2_of_not hnd) (walkAbove_innerV2_of_not hnd) ho ?_
          rw [upperFrame_of_isLeaf_eq_false rfl, hstart, hfilter]
          simp [he]
        · have hv := (hch _ he).isV1Inner_eq_false
          have hdesc : Descends id d' c ch nodeID := ⟨hp, he, hv⟩
          refine .descend rfl he ho hstart (walkStop_innerV2_of_descends hdesc)
            (walkAbove_innerV2_of_descends hdesc) hfilter
            (ih _ he he _ (fun hi => v2ChildID_mDepth hi hv) fun h => absurd h (by decide))
      · -- the key leaves the prefix: it is below all the leaves or above them all
        have hnd : ¬Descends id d' c ch nodeID := fun h => hp h.1
        refine .here (walkStop_innerV2_of_not hnd) (walkAbove_innerV2_of_not hnd) ho ?_
        have hne' : ¬AgreeBelow d' c.nibble id.nibble := fun h => hp ((hasCommonPrefix_iff d' c id).mpr h)
        have hiff : ∀ x ∈ (innerV2 d' c ch).leaves, (id < x.1.tag ↔ id < c) :=
          fun x hx => lt_iff_of_not_agree (hc rfl x hx) hne'
        rw [upperFrame_of_isLeaf_eq_false rfl]
        by_cases hlt : id < c
        · rw [List.filter_eq_self.mpr fun x hx => by simpa using (hiff x hx).mpr hlt]
          simp only [upperStart, depth, key, hp, hlt, if_true, Bool.false_eq_true, if_false]
          exact leavesFrom_zero rfl
        · rw [List.filter_eq_nil_iff.mpr fun x hx => by simpa using mt (hiff x hx).mp hlt]
          simp [upperStart, depth, key, hp, hlt, leavesFrom_of_le]

end UpperBound

/-- **`upper_bound(id)` visits the leaves above `id`**, in branch order. -/
theorem upperBound_visits {m : SHAMap} (h : m.Invariants) (id : UInt256) :
    Visits m.isV2 (m.upperBound id) (m.root.leaves.filter fun x => id < x.1.tag) := by
  have hne : m.root ≠ .empty := fun he => by simpa [he, isInner] using h.isInner
  have hready := @walkReady _ id _ _ h.ordered hne .root (fun _ => rfl) fun _ _ _ => AgreeBelow.zero _ _
  rw [upperBound, walkTowardsKey_snd hne, ← hready.frames]
  have hchain := hready.chain [] trivial
  rw [List.append_nil] at hchain
  exact upperLoop_visits ⟨hready.stop, hchain, hready.pass⟩

/-! ## Ordered traversal -/

theorem Visits.eq_done_iff {isv2 : Bool} {c : Cursor} {l : List (SHAMapItem × TNType)} (h : Visits isv2 c l) :
    c = .done ↔ l = [] := by
  match c, l, h with
  | .done, [], _ => simp
  | .item _ _, _ :: _, _ => simp

theorem Visits.head {isv2 : Bool} {x : SHAMapItem × TNType} {S : SharedPtrNodeStack}
    {l : List (SHAMapItem × TNType)} (h : Visits isv2 (.item x S) l) : ∃ ys, l = x :: ys := by
  match l, h with
  | _ :: ys, h => exact ⟨ys, by rw [h.1]⟩

/-- **Ordered traversal.** In every map reachable from an empty one of either version, the leaves
are the items `findKey` finds, in strictly increasing key order; iterating from `begin()` visits
them all and then reaches `end()`; and `upper_bound(id)`, for any key, is `end()` when no item is
above `id` and otherwise at the least item above it, from which the iteration visits exactly the
items above `id`. -/
theorem iteration_in_key_order (v2 : Bool) (ops : List Op) :
    let m := (empty v2).run ops
    (∀ x, x ∈ m.root.leaves ↔ m.findKey x.1.tag = some x) ∧ Ascending m.root.leaves ∧
    (∀ fuel, m.root.leaves.length < fuel → m.itemsFrom fuel m.begin = some m.root.leaves) ∧
    ∀ id : UInt256,
      (m.upperBound id = .done ↔ ∀ x ∈ m.root.leaves, ¬id < x.1.tag) ∧
      (∀ x S, m.upperBound id = .item x S →
        x ∈ m.root.leaves ∧ id < x.1.tag ∧ ∀ y ∈ m.root.leaves, id < y.1.tag → ¬y.1.tag < x.1.tag) ∧
      ∀ fuel, m.root.leaves.length < fuel →
        m.itemsFrom fuel (m.upperBound id) = some (m.root.leaves.filter fun x => id < x.1.tag) := by
  intro m
  have h : m.Invariants := (run_simulates (invariants_empty v2) ops).1.1
  have hasc := h.ascending
  refine ⟨fun x => ?_, hasc, fun fuel hf => itemsFrom_of_visits m fuel (begin_visits h) hf, fun id => ?_⟩
  · rw [findKey_eq h, lookup_eq_some_iff h]
    simp
  · have hv := upperBound_visits h id
    have hlen := List.length_filter_le (fun x : SHAMapItem × TNType => decide (id < x.1.tag)) m.root.leaves
    refine ⟨?_, fun x S hxS => ?_, fun fuel hf => itemsFrom_of_visits m fuel hv (by omega)⟩
    · rw [hv.eq_done_iff, List.filter_eq_nil_iff]
      simp
    · rw [hxS] at hv
      obtain ⟨ys, hys⟩ := hv.head
      have hx : x ∈ m.root.leaves.filter (fun x => id < x.1.tag) := hys ▸ List.mem_cons_self
      -- the leaves above `id` are still ascending, so the first of them is the least
      have hasc' : Ascending (x :: ys) := hys ▸ List.Pairwise.filter _ hasc
      simp only [List.mem_filter, decide_eq_true_eq] at hx
      refine ⟨hx.1, hx.2, fun y hy hyid hlt => ?_⟩
      have hyf : y ∈ x :: ys := hys ▸ List.mem_filter.mpr ⟨hy, by simpa using hyid⟩
      rcases List.mem_cons.mp hyf with rfl | hys'
      · exact BaseUInt.lt_irrefl _ hlt
      · exact BaseUInt.lt_asymm (List.rel_of_pairwise_cons hasc' hys') hlt

end SHAMap

end Ripple
