import ChainSqld.SHAMap.Walk

/-!
# The shape of a SHAMap

`SHAMap::invariants` asserts what every node of a map looks like; here it is a predicate on trees,
for each version:

- `WF1 d t`: `t` sits in a slot at depth `d` of a v1 map. Below an inner node, every leaf of slot
  `b` takes branch `b` at depth `d` (`Routed`), and an inner node that is not the root has at least
  two leaves below it.
- `WF2 t`: a v2 node. An inner node has at least two branches, every leaf below it starts with its
  common prefix of length `depth`, and is routed by its nibble at `depth`.

These shapes are canonical: two trees of the same shape with the same leaves are the same tree
(`WF1.eq_of_leaves`, `WF2.eq_of_leaves`), which is why the hash of a map depends on its items only.
Under them the keys below a node are distinct (`WF1.nodup`, `WF2.nodup`) and the walk towards a key
finds the leaf that holds it (`findKey_eq`).
-/

namespace Ripple

open Prefix

namespace SHAMapAbstractNode

/-- The keys of the leaves below a node. -/
def keys (t : SHAMapAbstractNode) : List UInt256 := t.leaves.map fun x => x.1.tag

theorem mem_keys {t : SHAMapAbstractNode} {k : UInt256} : k ∈ t.keys ↔ ∃ x ∈ t.leaves, x.1.tag = k := by
  simp [keys]

/-- Every leaf below slot `b` takes branch `b` at depth `d`. -/
def Routed (d : Nat) (ch : Fin 16 → SHAMapAbstractNode) : Prop :=
  ∀ b x, x ∈ (ch b).leaves → x.1.tag.nibble d = b

theorem Routed.mem_child {d : Nat} {ch : Fin 16 → SHAMapAbstractNode} (hr : Routed d ch)
    {x : SHAMapItem × TNType} (hx : ∃ i, x ∈ (ch i).leaves) : x ∈ (ch (x.1.tag.nibble d)).leaves := by
  obtain ⟨i, hi⟩ := hx
  rwa [hr i x hi]

/-- Two routed sets of slots holding the same leaves hold the same leaves in each slot. -/
theorem Routed.child_iff {d : Nat} {ch₁ ch₂ : Fin 16 → SHAMapAbstractNode} (hr₁ : Routed d ch₁)
    (hr₂ : Routed d ch₂) (h : ∀ x, (∃ i, x ∈ (ch₁ i).leaves) ↔ (∃ i, x ∈ (ch₂ i).leaves)) (b : Fin 16)
    (x : SHAMapItem × TNType) : x ∈ (ch₁ b).leaves ↔ x ∈ (ch₂ b).leaves := by
  constructor
  · intro hx
    have hx₂ := hr₂.mem_child ((h x).mp ⟨b, hx⟩)
    rwa [hr₁ b x hx] at hx₂
  · intro hx
    have hx₁ := hr₁.mem_child ((h x).mpr ⟨b, hx⟩)
    rwa [hr₂ b x hx] at hx₁

/-- Slots that route their leaves by nibble `d` hold distinct keys if each slot does. -/
theorem Routed.nodup {d : Nat} {ch : Fin 16 → SHAMapAbstractNode} (hr : Routed d ch)
    (hch : ∀ b, (ch b).keys.Nodup) :
    (((List.finRange 16).flatMap fun i => (ch i).leaves).map fun x => x.1.tag).Nodup := by
  rw [List.map_flatMap]
  refine List.nodup_flatMap.mpr ⟨fun b _ => hch b, (List.nodup_finRange 16).imp ?_⟩
  intro i j hij k hki hkj
  obtain ⟨x, hx, rfl⟩ := mem_keys.mp hki
  obtain ⟨y, hy, hyx⟩ := mem_keys.mp hkj
  exact hij ((hr i x hx).symm.trans (hyx ▸ hr j y hy))

/-! ## Version 1 -/

/-- A v1 subtree in a slot at depth `d`. -/
inductive WF1 : Nat → SHAMapAbstractNode → Prop
  | empty {d : Nat} : WF1 d .empty
  | leaf {d : Nat} {it : SHAMapItem} {ty : TNType} (hty : ty.isLeafType = true) : WF1 d (.leaf it ty)
  | inner {d : Nat} {ch : Fin 16 → SHAMapAbstractNode} (hch : ∀ b, WF1 (d + 1) (ch b))
      (hr : Routed d ch) (h2 : 2 ≤ (SHAMapAbstractNode.inner ch).leaves.length) : WF1 d (.inner ch)

/-- The slots of a v1 inner node at depth `d`, the root included. -/
def WF1Inner (d : Nat) (ch : Fin 16 → SHAMapAbstractNode) : Prop :=
  (∀ b, WF1 (d + 1) (ch b)) ∧ Routed d ch

theorem WF1.nodup {d : Nat} {t : SHAMapAbstractNode} (h : WF1 d t) : t.keys.Nodup := by
  induction h with
  | empty => simp [keys]
  | leaf => simp [keys]
  | inner _ hr _ ih => exact hr.nodup ih

theorem WF1Inner.nodup {d : Nat} {ch : Fin 16 → SHAMapAbstractNode} (h : WF1Inner d ch) :
    (SHAMapAbstractNode.inner ch).keys.Nodup :=
  h.2.nodup fun b => (h.1 b).nodup

/-- Every node of a v1 subtree has a leaf below it. -/
theorem WF1.leaves_ne_nil {d : Nat} {t : SHAMapAbstractNode} (h : WF1 d t) (ht : t ≠ .empty) :
    t.leaves ≠ [] := by
  cases h with
  | empty => exact absurd rfl ht
  | leaf => simp
  | inner _ _ h2 => exact List.ne_nil_of_length_pos (by omega)

/-- Every leaf of a v1 subtree has a leaf type. -/
theorem WF1.isLeafType_of_mem {d : Nat} {t : SHAMapAbstractNode} (h : WF1 d t) {x : SHAMapItem × TNType}
    (hx : x ∈ t.leaves) : x.2.isLeafType = true := by
  induction h with
  | empty => exact absurd hx List.not_mem_nil
  | leaf hty => rw [leaves_leaf, List.mem_singleton] at hx; rw [hx]; exact hty
  | inner _ _ _ ih =>
    obtain ⟨i, hi⟩ := mem_leaves_inner.mp hx
    exact ih i hi

/-- A list of at least two items with distinct keys is not made of one item. -/
theorem not_forall_eq_of_nodup {l : List (SHAMapItem × TNType)} (hl : 2 ≤ l.length)
    (hnd : (l.map fun x => x.1.tag).Nodup) (a : SHAMapItem × TNType) : ¬ ∀ x ∈ l, x = a := by
  intro h
  rw [List.eq_replicate_iff.mpr ⟨rfl, h⟩, List.map_replicate, List.nodup_replicate] at hnd
  omega

/-- Two canonical v1 subtrees in slots of the same depth with the same leaves are equal. -/
theorem WF1.eq_of_leaves {d : Nat} {t₁ t₂ : SHAMapAbstractNode} (h₁ : WF1 d t₁) (h₂ : WF1 d t₂)
    (h : ∀ x, x ∈ t₁.leaves ↔ x ∈ t₂.leaves) : t₁ = t₂ := by
  induction h₁ generalizing t₂ with
  | empty =>
    cases h₂ with
    | empty => rfl
    | leaf => exact absurd ((h _).mpr (List.mem_singleton_self _)) (List.not_mem_nil)
    | @inner _ ch _ _ h2 =>
      obtain ⟨x, hx⟩ :=
        List.exists_mem_of_length_pos (by omega : 0 < (SHAMapAbstractNode.inner ch).leaves.length)
      exact absurd ((h x).mpr hx) List.not_mem_nil
  | @leaf _ it ty _ =>
    cases h₂ with
    | empty => exact absurd ((h _).mp (List.mem_singleton_self _)) List.not_mem_nil
    | leaf => simpa using (h (it, ty)).mp (List.mem_singleton_self _)
    | inner hch hr h2 =>
      exact absurd (fun x hx => List.mem_singleton.mp ((h x).mpr hx))
        (not_forall_eq_of_nodup h2 (WF1Inner.nodup ⟨hch, hr⟩) (it, ty))
  | @inner _ ch₁ hch₁ hr₁ h2₁ ih =>
    cases h₂ with
    | empty =>
      obtain ⟨x, hx⟩ :=
        List.exists_mem_of_length_pos (by omega : 0 < (SHAMapAbstractNode.inner ch₁).leaves.length)
      exact absurd ((h x).mp hx) List.not_mem_nil
    | @leaf _ it ty _ =>
      exact absurd (fun x hx => List.mem_singleton.mp ((h x).mp hx))
        (not_forall_eq_of_nodup h2₁ (WF1Inner.nodup ⟨hch₁, hr₁⟩) (it, ty))
    | @inner _ ch₂ hch₂ hr₂ _ =>
      simp only [mem_leaves_inner] at h
      congr 1
      funext b
      exact ih b (hch₂ b) (hr₁.child_iff hr₂ h b)

/-- Two v1 roots with the same leaves are equal. -/
theorem WF1Inner.eq_of_leaves {d : Nat} {ch₁ ch₂ : Fin 16 → SHAMapAbstractNode} (h₁ : WF1Inner d ch₁)
    (h₂ : WF1Inner d ch₂) (h : ∀ x, x ∈ (inner ch₁).leaves ↔ x ∈ (inner ch₂).leaves) : ch₁ = ch₂ := by
  simp only [mem_leaves_inner] at h
  funext b
  exact (h₁.1 b).eq_of_leaves (h₂.1 b) (h₁.2.child_iff h₂.2 h b)

/-! ## Version 2 -/

/-- A v2 subtree: inner nodes have at least two branches, a common prefix of their depth shared by
every leaf below them, and route their leaves by the nibble at that depth. -/
inductive WF2 : SHAMapAbstractNode → Prop
  | empty : WF2 .empty
  | leaf {it : SHAMapItem} {ty : TNType} (hty : ty.isLeafType = true) : WF2 (.leaf it ty)
  | innerV2 {d : Nat} {c : UInt256} {ch : Fin 16 → SHAMapAbstractNode} (hch : ∀ b, WF2 (ch b))
      (hr : Routed d ch) (hc : ∀ x ∈ (innerV2 d c ch).leaves, keyPrefix d x.1.tag = c)
      (h2 : 2 ≤ (innerV2 d c ch).getBranchCount) : WF2 (.innerV2 d c ch)

/-- The slots of a v2 inner node at depth `d`, the root included. -/
def WF2Inner (d : Nat) (ch : Fin 16 → SHAMapAbstractNode) : Prop :=
  (∀ b, WF2 (ch b)) ∧ Routed d ch

theorem WF2.nodup {t : SHAMapAbstractNode} (h : WF2 t) : t.keys.Nodup := by
  induction h with
  | empty => simp [keys]
  | leaf => simp [keys]
  | innerV2 _ hr _ _ ih => exact hr.nodup ih

theorem WF2Inner.nodup {d : Nat} {c : UInt256} {ch : Fin 16 → SHAMapAbstractNode} (h : WF2Inner d ch) :
    (innerV2 d c ch).keys.Nodup :=
  h.2.nodup fun b => (h.1 b).nodup

/-- Every node of a v2 tree has a leaf below it. -/
theorem WF2.leaves_ne_nil {t : SHAMapAbstractNode} (h : WF2 t) (ht : t ≠ .empty) : t.leaves ≠ [] := by
  induction h with
  | empty => exact absurd rfl ht
  | leaf => simp
  | @innerV2 d c ch _ _ _ h2 ih =>
    obtain ⟨i, -, -, hi, -⟩ := one_lt_getBranchCount_iff.mp h2
    obtain ⟨x, hx⟩ := List.exists_mem_of_ne_nil _ (ih i hi)
    exact List.ne_nil_of_mem (mem_leaves_innerV2.mpr ⟨i, hx⟩)

/-- Every leaf of a v2 subtree has a leaf type. -/
theorem WF2.isLeafType_of_mem {t : SHAMapAbstractNode} (h : WF2 t) {x : SHAMapItem × TNType}
    (hx : x ∈ t.leaves) : x.2.isLeafType = true := by
  induction h with
  | empty => exact absurd hx List.not_mem_nil
  | leaf hty => rw [leaves_leaf, List.mem_singleton] at hx; rw [hx]; exact hty
  | innerV2 _ _ _ _ ih =>
    obtain ⟨i, hi⟩ := mem_leaves_innerV2.mp hx
    exact ih i hi

/-- A v2 inner node has two leaves that part at its depth and agree below it. -/
theorem WF2.split_at_depth {d : Nat} {c : UInt256} {ch : Fin 16 → SHAMapAbstractNode}
    (h : WF2 (SHAMapAbstractNode.innerV2 d c ch)) :
    ∃ x ∈ (SHAMapAbstractNode.innerV2 d c ch).leaves, ∃ y ∈ (SHAMapAbstractNode.innerV2 d c ch).leaves,
      x.1.tag.nibble d ≠ y.1.tag.nibble d := by
  cases h with
  | innerV2 hch hr _ h2 =>
    obtain ⟨i, j, hij, hi, hj⟩ := one_lt_getBranchCount_iff.mp h2
    obtain ⟨x, hx⟩ := List.exists_mem_of_ne_nil _ ((hch i).leaves_ne_nil hi)
    obtain ⟨y, hy⟩ := List.exists_mem_of_ne_nil _ ((hch j).leaves_ne_nil hj)
    refine ⟨x, mem_leaves_innerV2.mpr ⟨i, hx⟩, y, mem_leaves_innerV2.mpr ⟨j, hy⟩, ?_⟩
    rw [hr i x hx, hr j y hy]
    exact hij

/-- Leaves that share a prefix agree on its nibbles. -/
theorem agreeBelow_of_keyPrefix {d : Nat} {c k k' : UInt256} (hk : keyPrefix d k = c)
    (hk' : keyPrefix d k' = c) : AgreeBelow d k.nibble k'.nibble :=
  keyPrefix_eq_iff.mp (hk.trans hk'.symm)

/-- The depth of a v2 inner node is fixed by its leaves: it is where two of them first part. -/
theorem WF2.depth_le {d d' : Nat} {c c' : UInt256} {ch ch' : Fin 16 → SHAMapAbstractNode}
    (h : WF2 (SHAMapAbstractNode.innerV2 d c ch)) (h' : WF2 (SHAMapAbstractNode.innerV2 d' c' ch'))
    (hmem : ∀ x, x ∈ (SHAMapAbstractNode.innerV2 d c ch).leaves → x ∈ (SHAMapAbstractNode.innerV2 d' c' ch').leaves) : d' ≤ d := by
  obtain ⟨x, hx, y, hy, hxy⟩ := h.split_at_depth
  cases h' with
  | innerV2 _ _ hc' _ =>
    exact AgreeBelow.le_of_ne (agreeBelow_of_keyPrefix (hc' x (hmem x hx)) (hc' y (hmem y hy))) hxy

/-- Two v2 subtrees with the same leaves are equal. -/
theorem WF2.eq_of_leaves {t₁ t₂ : SHAMapAbstractNode} (h₁ : WF2 t₁) (h₂ : WF2 t₂)
    (h : ∀ x, x ∈ t₁.leaves ↔ x ∈ t₂.leaves) : t₁ = t₂ := by
  induction h₁ generalizing t₂ with
  | empty =>
    by_contra hne
    obtain ⟨x, hx⟩ := List.exists_mem_of_ne_nil _ (h₂.leaves_ne_nil (Ne.symm hne))
    exact List.not_mem_nil ((h x).mpr hx)
  | @leaf it ty hty =>
    cases h₂ with
    | empty => exact absurd ((h _).mp (List.mem_singleton_self _)) List.not_mem_nil
    | leaf => simpa using (h (it, ty)).mp (List.mem_singleton_self _)
    | innerV2 hch hr hc h2 =>
      obtain ⟨x, hx, y, hy, hxy⟩ := (WF2.innerV2 hch hr hc h2).split_at_depth
      have hx' := List.mem_singleton.mp ((h x).mpr hx)
      have hy' := List.mem_singleton.mp ((h y).mpr hy)
      exact absurd (by rw [hx', hy']) hxy
  | @innerV2 d₁ c₁ ch₁ hch₁ hr₁ hc₁ h2₁ ih =>
    have hw₁ := WF2.innerV2 hch₁ hr₁ hc₁ h2₁
    cases h₂ with
    | empty =>
      obtain ⟨x, hx⟩ := List.exists_mem_of_ne_nil _ (hw₁.leaves_ne_nil (by simp))
      exact absurd ((h x).mp hx) List.not_mem_nil
    | @leaf it ty _ =>
      obtain ⟨x, hx, y, hy, hxy⟩ := hw₁.split_at_depth
      have hx' := List.mem_singleton.mp ((h x).mp hx)
      have hy' := List.mem_singleton.mp ((h y).mp hy)
      exact absurd (by rw [hx', hy']) hxy
    | @innerV2 d₂ c₂ ch₂ hch₂ hr₂ hc₂ h2₂ =>
      have hw₂ := WF2.innerV2 hch₂ hr₂ hc₂ h2₂
      have hd : d₁ = d₂ :=
        Nat.le_antisymm (hw₂.depth_le hw₁ fun x => (h x).mpr) (hw₁.depth_le hw₂ fun x => (h x).mp)
      subst hd
      obtain ⟨x, hx, -⟩ := hw₁.split_at_depth
      have hc : c₁ = c₂ := (hc₁ x hx).symm.trans (hc₂ x ((h x).mp hx))
      subst hc
      simp only [mem_leaves_innerV2] at h
      congr 1
      funext b
      exact ih b (hch₂ b) (hr₁.child_iff hr₂ h b)

/-- Two v2 roots of the same depth with the same leaves are equal. -/
theorem WF2Inner.eq_of_leaves {d : Nat} {c : UInt256} {ch₁ ch₂ : Fin 16 → SHAMapAbstractNode}
    (h₁ : WF2Inner d ch₁) (h₂ : WF2Inner d ch₂)
    (h : ∀ x, x ∈ (innerV2 d c ch₁).leaves ↔ x ∈ (innerV2 d c ch₂).leaves) : ch₁ = ch₂ := by
  simp only [mem_leaves_innerV2] at h
  funext b
  exact (h₁.1 b).eq_of_leaves (h₂.1 b) (h₁.2.child_iff h₂.2 h b)

end SHAMapAbstractNode

namespace SHAMap

open SHAMapAbstractNode

/-! ## Maps -/

/-- `SHAMap::invariants` for a whole map: a v1 root whose slots are canonical, or a v2 root of
depth 0 with a zero prefix whose slots are canonical. -/
def Invariants (m : SHAMap) : Prop :=
  (∃ ch, m.root = .inner ch ∧ WF1Inner 0 ch) ∨
    (∃ ch, m.root = .innerV2 0 (BaseUInt.zero 32) ch ∧ WF2Inner 0 ch)

theorem invariants_empty (v2 : Bool) : (empty v2).Invariants := by
  have hr : Routed 0 noChildren := fun _ _ hx => absurd hx (by simp [noChildren])
  cases v2
  · exact Or.inl ⟨noChildren, rfl, fun _ => WF1.empty, hr⟩
  · exact Or.inr ⟨noChildren, rfl, fun _ => WF2.empty, hr⟩

theorem Invariants.nodup {m : SHAMap} (h : m.Invariants) : m.root.keys.Nodup := by
  rcases h with ⟨ch, hroot, hin⟩ | ⟨ch, hroot, hin⟩
  · rw [hroot]; exact hin.nodup
  · rw [hroot]; exact hin.nodup

/-- The item and type the map holds for a key: the leaf with that key. -/
def lookup (m : SHAMap) (k : UInt256) : Option (SHAMapItem × TNType) :=
  m.root.leaves.find? fun x => x.1.tag == k

/-- Among items with distinct keys, the one found for a key is the one with that key. -/
theorem find?_tag_eq_some_iff {l : List (SHAMapItem × TNType)} (hnd : (l.map fun x => x.1.tag).Nodup)
    {k : UInt256} {x : SHAMapItem × TNType} :
    l.find? (fun x => x.1.tag == k) = some x ↔ x ∈ l ∧ x.1.tag = k := by
  constructor
  · intro h
    exact ⟨List.mem_of_find?_eq_some h, by simpa using List.find?_some h⟩
  · rintro ⟨hx, rfl⟩
    obtain ⟨y, hy⟩ := Option.isSome_iff_exists.mp
      (List.find?_isSome.mpr ⟨x, hx, by simp⟩ : (l.find? fun y => y.1.tag == x.1.tag).isSome)
    have hyx : y.1.tag = x.1.tag := by simpa using List.find?_some hy
    rw [hy, List.inj_on_of_nodup_map hnd (List.mem_of_find?_eq_some hy) hx hyx]

theorem lookup_eq_some_iff {m : SHAMap} (h : m.Invariants) {k : UInt256} {x : SHAMapItem × TNType} :
    m.lookup k = some x ↔ x ∈ m.root.leaves ∧ x.1.tag = k :=
  find?_tag_eq_some_iff h.nodup

theorem lookup_eq_none_iff {m : SHAMap} {k : UInt256} : m.lookup k = none ↔ k ∉ m.root.keys := by
  simp [lookup, keys]

/-! ## The walk finds the leaf -/

/-- The leaf holding `k` where a walk towards `k` stops, if there is one. -/
def stopLeaf (k : UInt256) (t : SHAMapAbstractNode) (nodeID : SHAMapNodeID) :
    Option (SHAMapItem × TNType) :=
  match (walkStop k t nodeID).1 with
  | .leaf it ty => if it.tag = k then some (it, ty) else none
  | _ => none

theorem findKey_eq_stopLeaf (m : SHAMap) (k : UInt256) : m.findKey k = stopLeaf k m.root .root := by
  simp only [findKey, walkTowardsKey_fst, stopLeaf]
  cases (walkStop k m.root SHAMapNodeID.root).1 <;> rfl

/-- The walk stops at a leaf holding the key exactly when `stopLeaf` finds one. -/
theorem stopLeaf_eq_none_iff {k : UInt256} {t : SHAMapAbstractNode} {nodeID : SHAMapNodeID} :
    stopLeaf k t nodeID = none ↔
      ((walkStop k t nodeID).1.isLeaf && (walkStop k t nodeID).1.key == k) = false := by
  unfold stopLeaf
  cases (walkStop k t nodeID).1 <;> simp [isLeaf, key]

theorem stopLeaf_eq_some_iff {k : UInt256} {t : SHAMapAbstractNode} {nodeID : SHAMapNodeID}
    {x : SHAMapItem × TNType} :
    stopLeaf k t nodeID = some x ↔ (walkStop k t nodeID).1 = .leaf x.1 x.2 ∧ x.1.tag = k := by
  unfold stopLeaf
  cases (walkStop k t nodeID).1 with
  | leaf it ty =>
    by_cases hk : it.tag = k
    · simp only [hk, if_true, Option.some.injEq, leaf.injEq]
      constructor
      · rintro rfl; exact ⟨⟨rfl, rfl⟩, hk⟩
      · rintro ⟨⟨rfl, rfl⟩, -⟩; rfl
    · simp only [hk, if_false, reduceCtorEq, false_iff, not_and, leaf.injEq]
      rintro ⟨rfl, -⟩ rfl
      exact hk rfl
  | _ => simp

/-- What a walk finds at a leaf. -/
theorem stopLeaf_leaf_iff (k : UInt256) (it : SHAMapItem) (ty : TNType) (nodeID : SHAMapNodeID)
    (x : SHAMapItem × TNType) :
    stopLeaf k (.leaf it ty) nodeID = some x ↔ x ∈ (leaf it ty).leaves ∧ x.1.tag = k := by
  simp only [stopLeaf, walkStop_leaf, leaves_leaf, List.mem_singleton]
  split_ifs with hk
  · constructor
    · rintro ⟨⟩; exact ⟨rfl, hk⟩
    · rintro ⟨rfl, -⟩; rfl
  · simp only [false_iff, not_and]
    rintro rfl
    exact hk

/-- One level of a v1 walk: it finds `k` below an inner node iff it finds it in the slot of `k`. -/
theorem stopLeaf_inner_iff {k : UInt256} {d : Nat} {ch : Fin 16 → SHAMapAbstractNode}
    {nodeID : SHAMapNodeID} (hr : Routed d ch) (hd : nodeID.mDepth = d) {x : SHAMapItem × TNType}
    (hchild : ch (nodeID.selectBranch k) ≠ .empty →
      (stopLeaf k (ch (nodeID.selectBranch k)) (nodeID.getChildNodeID (nodeID.selectBranch k)) = some x ↔
        x ∈ (ch (nodeID.selectBranch k)).leaves ∧ x.1.tag = k)) :
    stopLeaf k (.inner ch) nodeID = some x ↔ x ∈ (inner ch).leaves ∧ x.1.tag = k := by
  have hb : nodeID.selectBranch k = k.nibble d := by rw [← hd]; rfl
  by_cases he : ch (nodeID.selectBranch k) = .empty
  · simp only [stopLeaf, walkStop_inner_of_empty he, reduceCtorEq, false_iff, not_and]
    intro hx hk
    have := hr.mem_child (mem_leaves_inner.mp hx)
    rw [hk, ← hb, he] at this
    exact List.not_mem_nil this
  · have hstop : stopLeaf k (.inner ch) nodeID =
        stopLeaf k (ch (nodeID.selectBranch k)) (nodeID.getChildNodeID (nodeID.selectBranch k)) := by
      simp only [stopLeaf, walkStop_inner_of_ne he]
    rw [hstop, hchild he]
    constructor
    · rintro ⟨hx, hk⟩
      exact ⟨mem_leaves_inner.mpr ⟨_, hx⟩, hk⟩
    · rintro ⟨hx, hk⟩
      have := hr.mem_child (mem_leaves_inner.mp hx)
      rw [hk, ← hb] at this
      exact ⟨this, hk⟩

theorem WF1.stopLeaf_iff {d : Nat} {t : SHAMapAbstractNode} (h : WF1 d t) (k : UInt256)
    {nodeID : SHAMapNodeID} (hd : nodeID.mDepth = d) (x : SHAMapItem × TNType) :
    stopLeaf k t nodeID = some x ↔ x ∈ t.leaves ∧ x.1.tag = k := by
  induction h generalizing nodeID with
  | empty => simp [stopLeaf, walkStop, walkTowardsKey]
  | leaf => exact stopLeaf_leaf_iff k _ _ nodeID x
  | inner _ hr _ ih => exact stopLeaf_inner_iff hr hd fun _ => ih _ (by simp [hd])

/-- The prefix of a v2 node: a key whose walk leaves it is below no leaf of the node. -/
theorem not_mem_of_hasCommonPrefix_false {d : Nat} {c k : UInt256} {l : List (SHAMapItem × TNType)}
    (hc : ∀ x ∈ l, keyPrefix d x.1.tag = c) (hk : hasCommonPrefix d c k = false) :
    ∀ x ∈ l, x.1.tag ≠ k := by
  rintro x hx rfl
  have hag : AgreeBelow d c.nibble x.1.tag.nibble := fun i hi => by
    rw [← hc x hx, nibble_keyPrefix, if_pos hi]
  have hcp := (hasCommonPrefix_iff d c x.1.tag).mpr hag
  rw [hk] at hcp
  exact Bool.false_ne_true hcp

theorem WF2.isV1Inner_eq_false {t : SHAMapAbstractNode} (h : WF2 t) : isV1Inner t = false := by
  cases h <;> rfl

theorem keyPrefix_zero (k : UInt256) : keyPrefix 0 k = BaseUInt.zero 32 := by
  apply BaseUInt.eq_of_nibble
  intro i _
  rw [nibble_keyPrefix, if_neg (Nat.not_lt_zero i)]
  apply Fin.ext
  rw [BaseUInt.nibble_val, BaseUInt.byteAt_zero]
  split <;> rfl

/-- One level of a v2 walk: it finds `k` below an inner node iff it finds it in the slot of `k`. -/
theorem stopLeaf_innerV2_iff {k : UInt256} {d : Nat} {c : UInt256} {ch : Fin 16 → SHAMapAbstractNode}
    {nodeID : SHAMapNodeID} (hr : Routed d ch)
    (hc : ∀ x ∈ (SHAMapAbstractNode.innerV2 d c ch).leaves, keyPrefix d x.1.tag = c)
    (hv1 : ∀ b, isV1Inner (ch b) = false) (hd : nodeID.mDepth = d) {x : SHAMapItem × TNType}
    (hchild : ch (nodeID.selectBranch k) ≠ .empty →
      (stopLeaf k (ch (nodeID.selectBranch k)) (v2ChildID (ch (nodeID.selectBranch k))) = some x ↔
        x ∈ (ch (nodeID.selectBranch k)).leaves ∧ x.1.tag = k)) :
    stopLeaf k (.innerV2 d c ch) nodeID = some x ↔ x ∈ (innerV2 d c ch).leaves ∧ x.1.tag = k := by
  have hb : nodeID.selectBranch k = k.nibble d := by rw [← hd]; rfl
  by_cases hdesc : Descends k d c ch nodeID
  · have hstop : stopLeaf k (.innerV2 d c ch) nodeID =
        stopLeaf k (ch (nodeID.selectBranch k)) (v2ChildID (ch (nodeID.selectBranch k))) := by
      simp only [stopLeaf, walkStop_innerV2_of_descends hdesc]
    rw [hstop, hchild hdesc.2.1]
    constructor
    · rintro ⟨hx, hk⟩
      exact ⟨mem_leaves_innerV2.mpr ⟨_, hx⟩, hk⟩
    · rintro ⟨hx, hk⟩
      have := hr.mem_child (mem_leaves_innerV2.mp hx)
      rw [hk, ← hb] at this
      exact ⟨this, hk⟩
  · simp only [stopLeaf, walkStop_innerV2_of_not hdesc, reduceCtorEq, false_iff, not_and]
    intro hx hk
    simp only [Descends, not_and_or, Bool.not_eq_true] at hdesc
    rcases hdesc with hp | he | hv
    · exact not_mem_of_hasCommonPrefix_false hc hp x hx hk
    · have := hr.mem_child (mem_leaves_innerV2.mp hx)
      rw [hk, ← hb] at this
      rw [not_not.mp he] at this
      exact List.not_mem_nil this
    · rw [hv1] at hv
      exact hv rfl

theorem WF2.stopLeaf_iff {t : SHAMapAbstractNode} (h : WF2 t) (k : UInt256) {nodeID : SHAMapNodeID}
    (hd : t.isInner = true → nodeID.mDepth = t.depth) (x : SHAMapItem × TNType) :
    stopLeaf k t nodeID = some x ↔ x ∈ t.leaves ∧ x.1.tag = k := by
  induction h generalizing nodeID with
  | empty => simp [stopLeaf, walkStop, walkTowardsKey]
  | leaf => exact stopLeaf_leaf_iff k _ _ nodeID x
  | innerV2 hch hr hc _ ih =>
    refine stopLeaf_innerV2_iff hr hc (fun b => WF2.isV1Inner_eq_false (hch b)) (hd rfl)
      fun _ => ih _ ?_
    intro hi
    exact v2ChildID_mDepth hi (WF2.isV1Inner_eq_false (hch _))

/-- On a map that keeps its invariants, `findKey` returns the leaf holding the key. -/
theorem findKey_eq {m : SHAMap} (h : m.Invariants) (k : UInt256) : m.findKey k = m.lookup k := by
  apply Option.ext
  intro x
  rw [findKey_eq_stopLeaf, lookup_eq_some_iff h]
  rcases h with ⟨ch, hroot, hin⟩ | ⟨ch, hroot, hin⟩
  · rw [hroot]
    exact stopLeaf_inner_iff hin.2 rfl fun _ => WF1.stopLeaf_iff (hin.1 _) k (by simp) x
  · rw [hroot]
    refine stopLeaf_innerV2_iff hin.2 (fun x _ => keyPrefix_zero x.1.tag)
      (fun b => WF2.isV1Inner_eq_false (hin.1 b)) rfl fun _ => WF2.stopLeaf_iff (hin.1 _) k ?_ x
    exact fun hi => v2ChildID_mDepth hi (WF2.isV1Inner_eq_false (hin.1 _))

end SHAMap

end Ripple
