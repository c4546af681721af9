import ChainSqld.SHAMap.SHAMap

/-!
# What a walk leaves on the stack

`walkTowardsKey` pushes the nodes it passes, so its stack is the frame where it stopped on top of
the frames of the path above it. This module reads the stack as that pair, `walkStop` and
`walkAbove`, gives both the recursion of the walk itself (`walkStop_inner_of_ne`,
`walkAbove_inner_of_ne`, and the v2 and leaf cases), and turns every bottom-up pass over the stack
into a recursion on the tree: folding a step over `walkAbove` rebuilds the path to the root
(`foldl_walkAbove_inner_of_ne`, `foldl_walkAbove_innerV2_of_descends`). What the walk returns is
the leaf where it stopped (`walkTowardsKey_fst`); it never stops at an empty node, a v2 walk never at
a v1 node, and the frames a v2 walk pushes sit at their own depth (`walkAbove_mDepth`).
-/

namespace Ripple

namespace SHAMap

open SHAMapAbstractNode

variable (id : UInt256)

/-- The frame where a walk towards `id` from `t` at `nodeID` stops. -/
def walkStop (t : SHAMapAbstractNode) (nodeID : SHAMapNodeID) : SHAMapAbstractNode × SHAMapNodeID :=
  ((walkTowardsKey id t nodeID []).2.head?).getD (t, nodeID)

/-- The frames the walk pushes above the one where it stops, top first. -/
def walkAbove (t : SHAMapAbstractNode) (nodeID : SHAMapNodeID) : SharedPtrNodeStack :=
  (walkTowardsKey id t nodeID []).2.tail

variable {id}

/-- The walk pushes onto whatever stack it is given. -/
theorem walkTowardsKey_append (t : SHAMapAbstractNode) (nodeID : SHAMapNodeID) (S : SharedPtrNodeStack) :
    walkTowardsKey id t nodeID S =
      ((walkTowardsKey id t nodeID []).1, (walkTowardsKey id t nodeID []).2 ++ S) := by
  induction t generalizing nodeID S with
  | empty => simp [walkTowardsKey]
  | leaf it ty => simp [walkTowardsKey]
  | inner ch ih =>
    simp only [walkTowardsKey]
    split
    · simp
    · rw [ih _ _ ((inner ch, nodeID) :: S), ih _ _ [(inner ch, nodeID)]]
      simp
  | innerV2 d c ch ih =>
    simp only [walkTowardsKey]
    split
    · simp
    · split
      · simp
      · split
        · simp
        · rw [ih _ _ ((innerV2 d c ch, nodeID) :: S), ih _ _ [(innerV2 d c ch, nodeID)]]
          simp

theorem walkTowardsKey_snd_ne_nil {t : SHAMapAbstractNode} (ht : t ≠ .empty) (nodeID : SHAMapNodeID) :
    (walkTowardsKey id t nodeID []).2 ≠ [] := by
  induction t generalizing nodeID with
  | empty => exact absurd rfl ht
  | leaf it ty => simp [walkTowardsKey]
  | inner ch ih =>
    simp only [walkTowardsKey]
    split
    · simp
    · rw [walkTowardsKey_append]
      simp
  | innerV2 d c ch ih =>
    simp only [walkTowardsKey]
    split
    · simp
    · split
      · simp
      · split
        · simp
        · rw [walkTowardsKey_append]
          simp

/-- The stack of a walk from a node is its stop frame on top of the frames above it. -/
theorem walkTowardsKey_snd {t : SHAMapAbstractNode} (ht : t ≠ .empty) (nodeID : SHAMapNodeID) :
    (walkTowardsKey id t nodeID []).2 = walkStop id t nodeID :: walkAbove id t nodeID := by
  obtain ⟨top, rest, h⟩ := List.exists_cons_of_ne_nil (@walkTowardsKey_snd_ne_nil id t ht nodeID)
  simp [walkStop, walkAbove, h]

/-! ## One level of the walk -/

section Level

variable {ch : Fin 16 → SHAMapAbstractNode} {nodeID : SHAMapNodeID}

theorem walkStop_inner_of_empty (h : ch (nodeID.selectBranch id) = .empty) :
    walkStop id (.inner ch) nodeID = (.inner ch, nodeID) := by
  simp [walkStop, walkTowardsKey, h, isEmpty]

theorem walkAbove_inner_of_empty (h : ch (nodeID.selectBranch id) = .empty) :
    walkAbove id (.inner ch) nodeID = [] := by
  simp [walkAbove, walkTowardsKey, h, isEmpty]

theorem walkTowardsKey_inner_of_ne (h : ch (nodeID.selectBranch id) ≠ .empty) (S : SharedPtrNodeStack) :
    walkTowardsKey id (.inner ch) nodeID S =
      walkTowardsKey id (ch (nodeID.selectBranch id))
        (nodeID.getChildNodeID (nodeID.selectBranch id)) ((.inner ch, nodeID) :: S) := by
  have : (ch (nodeID.selectBranch id)).isEmpty = false := (isEmpty_eq_false_iff _).mpr h
  simp [walkTowardsKey, this]

theorem walkStop_inner_of_ne (h : ch (nodeID.selectBranch id) ≠ .empty) :
    walkStop id (.inner ch) nodeID =
      walkStop id (ch (nodeID.selectBranch id)) (nodeID.getChildNodeID (nodeID.selectBranch id)) := by
  rw [walkStop, walkTowardsKey_inner_of_ne h, walkTowardsKey_append, walkTowardsKey_snd h]
  rfl

theorem walkAbove_inner_of_ne (h : ch (nodeID.selectBranch id) ≠ .empty) :
    walkAbove id (.inner ch) nodeID =
      walkAbove id (ch (nodeID.selectBranch id)) (nodeID.getChildNodeID (nodeID.selectBranch id)) ++
        [(.inner ch, nodeID)] := by
  rw [walkAbove, walkTowardsKey_inner_of_ne h, walkTowardsKey_append, walkTowardsKey_snd h]
  rfl

variable {d : Nat} {c : UInt256}

/-- Whether a v2 walk goes on below `innerV2 d c ch`: the key shares the node's prefix and its
branch holds a v2 node or a leaf. -/
def Descends (id : UInt256) (d : Nat) (c : UInt256) (ch : Fin 16 → SHAMapAbstractNode)
    (nodeID : SHAMapNodeID) : Prop :=
  hasCommonPrefix d c id = true ∧ ch (nodeID.selectBranch id) ≠ .empty ∧
    isV1Inner (ch (nodeID.selectBranch id)) = false

theorem walkStop_innerV2_of_not (h : ¬ Descends id d c ch nodeID) :
    walkStop id (.innerV2 d c ch) nodeID = (.innerV2 d c ch, nodeID) := by
  simp only [Descends, not_and_or, ← isEmpty_eq_false_iff, Bool.not_eq_false] at h
  simp only [walkStop, walkTowardsKey]
  rcases h with h | h | h <;> simp [h]

theorem walkAbove_innerV2_of_not (h : ¬ Descends id d c ch nodeID) :
    walkAbove id (.innerV2 d c ch) nodeID = [] := by
  simp only [Descends, not_and_or, ← isEmpty_eq_false_iff, Bool.not_eq_false] at h
  simp only [walkAbove, walkTowardsKey]
  rcases h with h | h | h <;> simp [h]

theorem walkTowardsKey_innerV2_of_descends (h : Descends id d c ch nodeID) (S : SharedPtrNodeStack) :
    walkTowardsKey id (.innerV2 d c ch) nodeID S =
      walkTowardsKey id (ch (nodeID.selectBranch id)) (v2ChildID (ch (nodeID.selectBranch id)))
        ((.innerV2 d c ch, nodeID) :: S) := by
  obtain ⟨h1, h2, h3⟩ := h
  have : (ch (nodeID.selectBranch id)).isEmpty = false := (isEmpty_eq_false_iff _).mpr h2
  simp [walkTowardsKey, h1, h3, this]

theorem walkStop_innerV2_of_descends (h : Descends id d c ch nodeID) :
    walkStop id (.innerV2 d c ch) nodeID =
      walkStop id (ch (nodeID.selectBranch id)) (v2ChildID (ch (nodeID.selectBranch id))) := by
  rw [walkStop, walkTowardsKey_innerV2_of_descends h, walkTowardsKey_append, walkTowardsKey_snd h.2.1]
  rfl

theorem walkAbove_innerV2_of_descends (h : Descends id d c ch nodeID) :
    walkAbove id (.innerV2 d c ch) nodeID =
      walkAbove id (ch (nodeID.selectBranch id)) (v2ChildID (ch (nodeID.selectBranch id))) ++
        [(.innerV2 d c ch, nodeID)] := by
  rw [walkAbove, walkTowardsKey_innerV2_of_descends h, walkTowardsKey_append,
    walkTowardsKey_snd h.2.1]
  rfl

end Level

@[simp] theorem walkStop_leaf (it : SHAMapItem) (ty : TNType) (nodeID : SHAMapNodeID) :
    walkStop id (.leaf it ty) nodeID = (.leaf it ty, nodeID) := rfl

@[simp] theorem walkAbove_leaf (it : SHAMapItem) (ty : TNType) (nodeID : SHAMapNodeID) :
    walkAbove id (.leaf it ty) nodeID = [] := rfl

/-- The walk returns the leaf it stopped on, if it stopped on one. -/
theorem walkTowardsKey_fst (t : SHAMapAbstractNode) (nodeID : SHAMapNodeID) (S : SharedPtrNodeStack) :
    (walkTowardsKey id t nodeID S).1 =
      match (walkStop id t nodeID).1 with
      | .leaf it ty => some (it, ty)
      | _ => none := by
  induction t generalizing nodeID S with
  | empty => rfl
  | leaf it ty => rfl
  | inner ch ih =>
    by_cases h : ch (nodeID.selectBranch id) = .empty
    · rw [walkStop_inner_of_empty h]
      simp [walkTowardsKey, h, isEmpty]
    · rw [walkTowardsKey_inner_of_ne h, walkStop_inner_of_ne h, ih]
  | innerV2 d c ch ih =>
    by_cases h : Descends id d c ch nodeID
    · rw [walkTowardsKey_innerV2_of_descends h, walkStop_innerV2_of_descends h, ih]
    · rw [walkStop_innerV2_of_not h]
      simp only [Descends, not_and_or, ← isEmpty_eq_false_iff, Bool.not_eq_false] at h
      simp only [walkTowardsKey]
      rcases h with h | h | h <;> simp [h]

/-! ## Where a walk stops -/

/-- A walk into a non-empty subtree stops at a non-empty node: it never enters an empty branch. -/
theorem walkStop_ne_empty {t : SHAMapAbstractNode} (ht : t ≠ .empty) (nodeID : SHAMapNodeID) :
    (walkStop id t nodeID).1 ≠ .empty := by
  induction t generalizing nodeID with
  | empty => exact absurd rfl ht
  | leaf => simp
  | inner ch ih =>
    by_cases he : ch (nodeID.selectBranch id) = .empty
    · rw [walkStop_inner_of_empty he]; simp
    · rw [walkStop_inner_of_ne he]; exact ih _ he _
  | innerV2 d c ch ih =>
    by_cases hd : Descends id d c ch nodeID
    · rw [walkStop_innerV2_of_descends hd]; exact ih _ hd.2.1 _
    · rw [walkStop_innerV2_of_not hd]; simp

/-- A walk from a v2 node never stops at a v1 inner node, which it refuses to enter. -/
theorem walkStop_isV1Inner {t : SHAMapAbstractNode} (hv : isV1Inner t = false) (nodeID : SHAMapNodeID) :
    isV1Inner (walkStop id t nodeID).1 = false := by
  induction t generalizing nodeID with
  | empty => rfl
  | leaf => rfl
  | inner => simp [isV1Inner] at hv
  | innerV2 d c ch ih =>
    by_cases hd : Descends id d c ch nodeID
    · rw [walkStop_innerV2_of_descends hd]; exact ih _ hd.2.2 _
    · rw [walkStop_innerV2_of_not hd]; rfl

/-- A walk that pushed nothing above its stop stopped where it started. -/
theorem walkStop_of_walkAbove_eq_nil {t : SHAMapAbstractNode} {nodeID : SHAMapNodeID}
    (h : walkAbove id t nodeID = []) : walkStop id t nodeID = (t, nodeID) := by
  cases t with
  | empty => rfl
  | leaf => rfl
  | inner ch =>
    by_cases he : ch (nodeID.selectBranch id) = .empty
    · exact walkStop_inner_of_empty he
    · simp [walkAbove_inner_of_ne he] at h
  | innerV2 d c ch =>
    by_cases hd : Descends id d c ch nodeID
    · simp [walkAbove_innerV2_of_descends hd] at h
    · exact walkStop_innerV2_of_not hd

theorem v2ChildID_mDepth {t : SHAMapAbstractNode} (ht : t.isInner = true) (hv : isV1Inner t = false) :
    (v2ChildID t).mDepth = t.depth := by
  cases t <;> simp_all [isInner, isV1Inner, v2ChildID, depth]

/-- The frames above the stop of a v2 walk are v2 nodes at their own depth: each was entered at
the position `v2ChildID` gives it. -/
theorem walkAbove_mDepth {t : SHAMapAbstractNode} (hv : isV1Inner t = false) {nodeID : SHAMapNodeID}
    (hd : t.isInner = true → nodeID.mDepth = t.depth) :
    ∀ fr ∈ walkAbove id t nodeID, fr.2.mDepth = fr.1.depth := by
  induction t generalizing nodeID with
  | empty => simp [walkAbove, walkTowardsKey]
  | leaf => simp
  | inner => simp [isV1Inner] at hv
  | innerV2 d c ch ih =>
    by_cases hdesc : Descends id d c ch nodeID
    · rw [walkAbove_innerV2_of_descends hdesc]
      intro fr hfr
      rcases List.mem_append.mp hfr with hfr | hfr
      · exact ih _ hdesc.2.2 (fun hi => v2ChildID_mDepth hi hdesc.2.2) fr hfr
      · rw [List.mem_singleton.mp hfr]
        exact hd rfl
    · rw [walkAbove_innerV2_of_not hdesc]
      simp

/-! ## Bottom-up passes -/

theorem foldl_walkAbove_inner_of_ne {α : Type} (step : α → SHAMapAbstractNode × SHAMapNodeID → α)
    (x : α) {ch : Fin 16 → SHAMapAbstractNode} {nodeID : SHAMapNodeID}
    (h : ch (nodeID.selectBranch id) ≠ .empty) :
    (walkAbove id (.inner ch) nodeID).foldl step x =
      step ((walkAbove id (ch (nodeID.selectBranch id))
        (nodeID.getChildNodeID (nodeID.selectBranch id))).foldl step x) (.inner ch, nodeID) := by
  rw [walkAbove_inner_of_ne h, List.foldl_append]
  rfl

theorem foldl_walkAbove_innerV2_of_descends {α : Type} (step : α → SHAMapAbstractNode × SHAMapNodeID → α)
    (x : α) {d : Nat} {c : UInt256} {ch : Fin 16 → SHAMapAbstractNode} {nodeID : SHAMapNodeID}
    (h : Descends id d c ch nodeID) :
    (walkAbove id (.innerV2 d c ch) nodeID).foldl step x =
      step ((walkAbove id (ch (nodeID.selectBranch id))
        (v2ChildID (ch (nodeID.selectBranch id)))).foldl step x) (.innerV2 d c ch, nodeID) := by
  rw [walkAbove_innerV2_of_descends h, List.foldl_append]
  rfl

end SHAMap

end Ripple
