import ChainSqld.SHAMap.AddItem

/-!
# Deleting an item

`delItem` pops the leaf holding the key off the walk's stack and rebuilds the path with the loop of
`delStep`: each node takes the rebuilt child in the key's slot and, below the root, is dropped or
replaced by what is left below it when a single branch remains. A v1 node left with one leaf below
it is replaced by a new leaf, of the deleted leaf's type, holding that leaf's item (`onlyBelow`);
a v2 node left with one branch is replaced by that branch.

Each level keeps the shape canonical and the items those of the old subtree without the key
(`delStep1_spec`, `delStep2_spec`); by induction on the shape so does the whole path
(`delPath1_spec`, `delPath2_spec`), and the map keeps its invariants
(`delItem_of_findKey_eq_some`).
-/

namespace Ripple

open Prefix SHAMapAbstractNode

namespace SHAMap

/-- The subtree the loop of `delItem` builds from `t` when the walk towards `id` ends at a leaf of
type `type`. -/
def delPath (isv2 : Bool) (id : UInt256) (type : TNType) (t : SHAMapAbstractNode) (nodeID : SHAMapNodeID) :
    SHAMapAbstractNode :=
  (walkAbove id t nodeID).foldl (delStep isv2 id type) .empty

/-! ## A single branch -/

section Single

variable {ch : Fin 16 → SHAMapAbstractNode} {i : Fin 16}

/-- Below slots that are empty but for slot `i`, the leaves are those of slot `i`. -/
theorem mem_leaves_of_single (hs : ∀ j, j ≠ i → ch j = .empty) {y : SHAMapItem × TNType} :
    (∃ j, y ∈ (ch j).leaves) ↔ y ∈ (ch i).leaves := by
  constructor
  · rintro ⟨j, hj⟩
    by_cases hji : j = i
    · rwa [hji] at hj
    · rw [hs j hji] at hj
      exact absurd hj List.not_mem_nil
  · exact fun h => ⟨i, h⟩

/-- The filter `onlyBelow` takes of the non-empty slots keeps the slots the branch count counts. -/
theorem filter_nonempty_eq_singleton (h : (List.finRange 16).filter (fun j => !(ch j).isEmpty) = [i]) :
    ∀ j, j ≠ i → ch j = .empty := by
  intro j hji
  have hm : j ∈ (List.finRange 16).filter (fun j => !(ch j).isEmpty) ↔ j ∈ [i] := by rw [h]
  simp only [List.mem_filter, List.mem_finRange, true_and, Bool.not_eq_true', List.mem_singleton] at hm
  exact (isEmpty_iff _).mp (Bool.not_eq_false _ ▸ mt hm.mp hji)

/-- What `onlyBelow` finds is the only leaf below the node. -/
theorem onlyBelow_eq_some {n : SHAMapAbstractNode} {it : SHAMapItem} (h : onlyBelow n = some it) :
    ∃ ty, ∀ y, y ∈ n.leaves ↔ y = (it, ty) := by
  induction n with
  | empty => simp [onlyBelow] at h
  | leaf it' ty =>
    simp only [onlyBelow, Option.some.injEq] at h
    exact ⟨ty, by simp [h]⟩
  | inner ch ih =>
    unfold onlyBelow at h
    split at h
    · rename_i i hf
      obtain ⟨ty, hty⟩ := ih i h
      exact ⟨ty, fun y => by rw [mem_leaves_inner, mem_leaves_of_single (filter_nonempty_eq_singleton hf), hty]⟩
    · exact absurd h (by simp)
  | innerV2 d c ch ih =>
    unfold onlyBelow at h
    split at h
    · rename_i i hf
      obtain ⟨ty, hty⟩ := ih i h
      exact ⟨ty, fun y => by rw [mem_leaves_innerV2, mem_leaves_of_single (filter_nonempty_eq_singleton hf), hty]⟩
    · exact absurd h (by simp)

/-- A v1 node with one branch: `onlyBelow` looks below that branch. -/
theorem onlyBelow_inner_of_getBranchCount (h : (SHAMapAbstractNode.inner ch).getBranchCount = 1) :
    ∃ i, ch i ≠ .empty ∧ (∀ j, j ≠ i → ch j = .empty) ∧ onlyBelow (.inner ch) = onlyBelow (ch i) := by
  obtain ⟨i, hf⟩ := List.length_eq_one_iff.mp h
  have hf : (List.finRange 16).filter (fun j => !(ch j).isEmpty) = [i] := hf
  refine ⟨i, fun he => ?_, filter_nonempty_eq_singleton hf, by rw [onlyBelow, hf]⟩
  have : i ∈ (List.finRange 16).filter (fun j => !(ch j).isEmpty) := by rw [hf]; exact List.mem_singleton_self i
  simp [he, isEmpty] at this

/-- A node with one branch: the first non-empty slot is that branch. -/
theorem find?_nonempty_eq {n : SHAMapAbstractNode} (h : n.getBranchCount = 1) :
    ∃ i, (List.finRange 16).find? (fun j => !n.isEmptyBranch j) = some i ∧
      ∀ j, j ≠ i → n.getChild j = .empty := by
  obtain ⟨i, hi, hj⟩ := getBranchCount_eq_one_iff.mp h
  cases hf : (List.finRange 16).find? (fun j => !n.isEmptyBranch j) with
  | none =>
    have := List.find?_eq_none.mp hf i (List.mem_finRange i)
    simp [isEmptyBranch, isEmpty_eq_false_iff, hi] at this
  | some k =>
    have hk := List.find?_some hf
    simp only [isEmptyBranch, Bool.not_eq_true', isEmpty_eq_false_iff] at hk
    have hki : k = i := by_contra fun hki => hk (hj k hki)
    exact ⟨k, rfl, hki ▸ hj⟩

end Single

/-! ## One level of the loop -/

section Level

variable {tag : UInt256} {type : TNType} {d : Nat} {ch : Fin 16 → SHAMapAbstractNode}
  {nodeID : SHAMapNodeID} {c' : SHAMapAbstractNode}

theorem isRoot_eq_false {nodeID : SHAMapNodeID} (h : 0 < nodeID.mDepth) : nodeID.isRoot = false := by
  rw [Bool.eq_false_iff, ne_eq, SHAMapNodeID.isRoot_iff]
  omega

/-- A v1 node with no branch left has no leaf below it. -/
theorem leaves_eq_nil_of_getBranchCount_eq_zero (h : (SHAMapAbstractNode.inner ch).getBranchCount = 0) :
    (SHAMapAbstractNode.inner ch).leaves = [] := by
  have he := getBranchCount_eq_zero_iff.mp h
  refine List.eq_nil_iff_forall_not_mem.mpr fun y hy => ?_
  obtain ⟨i, hi⟩ := mem_leaves_inner.mp hy
  rw [show ch i = .empty from he i] at hi
  exact List.not_mem_nil hi

/-- A v1 node with two non-empty branches has two leaves below it. -/
theorem WF1Inner.two_le_length (hin : WF1Inner d ch) (h : 1 < (SHAMapAbstractNode.inner ch).getBranchCount) :
    2 ≤ (SHAMapAbstractNode.inner ch).leaves.length := by
  obtain ⟨i, j, hij, hi, hj⟩ := one_lt_getBranchCount_iff.mp h
  obtain ⟨x, hx⟩ := List.exists_mem_of_ne_nil _ ((hin.1 i).leaves_ne_nil hi)
  obtain ⟨y, hy⟩ := List.exists_mem_of_ne_nil _ ((hin.1 j).leaves_ne_nil hj)
  refine two_le_length_of_mem (mem_leaves_inner.mpr ⟨i, hx⟩) (mem_leaves_inner.mpr ⟨j, hy⟩) fun hxy => hij ?_
  rw [← hin.2 i x hx, ← hin.2 j y hy, hxy]

/-- A v1 node with one branch that `onlyBelow` cannot pull up keeps two leaves below it: its branch
is an inner node, which has two. -/
theorem WF1Inner.two_le_length_of_onlyBelow (hin : WF1Inner d ch)
    (h1 : (SHAMapAbstractNode.inner ch).getBranchCount = 1) (hob : onlyBelow (.inner ch) = none) :
    2 ≤ (SHAMapAbstractNode.inner ch).leaves.length := by
  obtain ⟨i, hi, -, hobi⟩ := onlyBelow_inner_of_getBranchCount h1
  rw [hobi] at hob
  have hle : (ch i).leaves.length ≤ (SHAMapAbstractNode.inner ch).leaves.length :=
    length_le_of_keys_subset (hin.1 i).nodup keys_subset_inner
  cases hwf : ch i with
  | empty => exact absurd hwf hi
  | leaf => rw [hwf] at hob; simp [onlyBelow] at hob
  | inner => have := hin.1 i; rw [hwf] at this hle; cases this with | inner _ _ h2 => omega
  | innerV2 => have := hin.1 i; rw [hwf] at this; cases this

/-- One pass of the v1 loop below the root: the node with its rebuilt child, dropped, or pulled up
to a leaf of the deleted leaf's type, is canonical and holds the old items but the key's. -/
theorem delStep1_spec (hwf : WF1 d (.inner ch)) (hd : nodeID.mDepth = d) (hd0 : 0 < d)
    (hty : type.isLeafType = true) (hc : WF1 (d + 1) c') (hrep : Replaces tag none type (ch (tag.nibble d)) c') :
    WF1 d (delStep false tag type c' (.inner ch, nodeID)) ∧
      Replaces tag none type (.inner ch) (delStep false tag type c' (.inner ch, nodeID)) := by
  have hb : nodeID.selectBranch tag = tag.nibble d := by rw [← hd]; rfl
  have hnr : nodeID.isRoot = false := isRoot_eq_false (hd ▸ hd0)
  obtain ⟨hch, hr⟩ : WF1Inner d ch := by cases hwf with | inner hch hr _ => exact ⟨hch, hr⟩
  have hin := WF1Inner.setChild ⟨hch, hr⟩ hc hrep
  have hrepn := hrep.setChild hr
  simp only [delStep, setChild_inner, hb, hnr, Bool.false_eq_true, if_false]
  split_ifs with h0 h1
  · -- no branch left: the node goes
    refine ⟨WF1.empty, hrepn.of_items (fun it => ?_) (by simp)⟩
    simp [items, leaves_eq_nil_of_getBranchCount_eq_zero h0]
  · cases hob : onlyBelow (.inner (Function.update ch (tag.nibble d) c')) with
    | some it =>
      -- one leaf left: it is pulled up, retyped
      obtain ⟨ty, hty'⟩ := onlyBelow_eq_some hob
      refine ⟨WF1.leaf hty, hrepn.of_items (fun it' => ?_) (by simp)⟩
      simp only [mem_items, leaves_leaf, List.mem_singleton, Prod.mk.injEq, hty']
      constructor
      · rintro ⟨_, h, -⟩
        exact ⟨ty, h, rfl⟩
      · rintro ⟨_, h, -⟩
        exact ⟨type, h, rfl⟩
    | none => exact ⟨WF1.inner hin.1 hin.2 (WF1Inner.two_le_length_of_onlyBelow hin h1 hob), hrepn⟩
  · exact ⟨WF1.inner hin.1 hin.2 (WF1Inner.two_le_length hin (by omega)), hrepn⟩

/-- The children of a v2 node sit deeper than the node: two of their leaves part below them, and
all agree down to the node's depth and on its nibble. -/
theorem WF2Inner.lt_depth {c : UInt256} (hin : WF2Inner d ch)
    (hc : ∀ x ∈ (SHAMapAbstractNode.innerV2 d c ch).leaves, keyPrefix d x.1.tag = c) {b : Fin 16}
    (hi : (ch b).isInner = true) : d < (ch b).depth := by
  have hwf := hin.1 b
  cases hcb : ch b with
  | innerV2 d' c' ch' =>
    rw [hcb] at hwf
    obtain ⟨x, hx, y, hy, hxy⟩ := hwf.split_at_depth
    rw [← hcb] at hx hy
    have hag : AgreeBelow (d + 1) x.1.tag.nibble y.1.tag.nibble :=
      agreeBelow_succ_iff.mpr ⟨agreeBelow_of_keyPrefix (hc x (mem_leaves_innerV2.mpr ⟨b, hx⟩))
        (hc y (mem_leaves_innerV2.mpr ⟨b, hy⟩)), (hin.2 b x hx).trans (hin.2 b y hy).symm⟩
    exact AgreeBelow.le_of_ne hag hxy
  | inner => rw [hcb] at hwf; cases hwf
  | _ => simp [hcb, isInner] at hi

/-- One pass of the v2 loop below the root: the node with its rebuilt child, or its one branch
left, is canonical and holds the old items but the key's. -/
theorem delStep2_spec {c : UInt256} (hwf : WF2 (.innerV2 d c ch)) (hd : nodeID.mDepth = d)
    (hnr : nodeID.isRoot = false) (hcp : hasCommonPrefix d c tag = true) (hc : WF2 c')
    (hrep : Replaces tag none type (ch (tag.nibble d)) c') :
    WF2 (delStep true tag type c' (.innerV2 d c ch, nodeID)) ∧
      Replaces tag none type (.innerV2 d c ch) (delStep true tag type c' (.innerV2 d c ch, nodeID)) := by
  have hb : nodeID.selectBranch tag = tag.nibble d := by rw [← hd]; rfl
  obtain ⟨⟨hch, hr⟩, h2⟩ : WF2Inner d ch ∧ 2 ≤ (SHAMapAbstractNode.innerV2 d c ch).getBranchCount := by
    cases hwf with | innerV2 hch hr _ h2 => exact ⟨⟨hch, hr⟩, h2⟩
  have hin := WF2Inner.setChild ⟨hch, hr⟩ hc hrep
  have hrepn : Replaces tag none type (.innerV2 d c ch) (.innerV2 d c (Function.update ch (tag.nibble d) c')) :=
    (hrep.setChild hr).innerV2
  simp only [delStep, setChild_innerV2, hb, hnr, Bool.false_eq_true, if_false, if_true]
  split_ifs with h1
  · -- one branch left: the node is replaced by it
    obtain ⟨i, hfind, hj⟩ := find?_nonempty_eq h1
    rw [hfind]
    refine ⟨hin.1 i, hrepn.of_items (fun it => ?_) fun y hy => Or.inl (mem_leaves_innerV2.mpr ⟨i, hy⟩)⟩
    simp only [mem_items, mem_leaves_innerV2]
    constructor
    · rintro ⟨ty, h⟩
      exact ⟨ty, i, h⟩
    · rintro ⟨ty, h⟩
      exact ⟨ty, (mem_leaves_of_single hj).mp h⟩
  · -- two branches left: one of the old ones is not the key's slot
    have hne0 : (SHAMapAbstractNode.innerV2 d c (Function.update ch (tag.nibble d) c')).getBranchCount ≠ 0 := by
      obtain ⟨i, j, hij, hi, hj⟩ := one_lt_getBranchCount_iff.mp h2
      intro h0
      have he := getBranchCount_eq_zero_iff.mp h0
      by_cases hib : i = tag.nibble d
      · have := he j
        simp only [getChild_innerV2, Function.update_of_ne (hib ▸ hij).symm] at this
        exact hj this
      · have := he i
        simp only [getChild_innerV2, Function.update_of_ne hib] at this
        exact hi this
    exact ⟨hwf.setChild_of_two_le hc hrep hcp (by omega), hrepn⟩

end Level

/-! ## The whole path -/

section Path

variable {tag : UInt256} {type : TNType} {d : Nat} {nodeID : SHAMapNodeID}

theorem replaces_leaf_empty {it : SHAMapItem} {ty : TNType} (hk : it.tag = tag) :
    Replaces tag none type (.leaf it ty) .empty where
  tag_eq _ h := by cases h
  items_iff it' := by
    simp only [mem_items, leaves_leaf, leaves_empty, List.not_mem_nil, List.mem_singleton,
      Prod.mk.injEq, exists_false, false_iff, reduceCtorEq, or_false, not_and]
    rintro ⟨_, rfl, -⟩
    exact absurd hk
  types _ hy := absurd hy List.not_mem_nil

theorem delPath_leaf (isv2 : Bool) (it : SHAMapItem) (ty : TNType) :
    delPath isv2 tag type (.leaf it ty) nodeID = .empty := rfl

/-- The v1 loop below a non-root subtree holding the key. -/
theorem delPath1_spec (hty : type.isLeafType = true) {t : SHAMapAbstractNode} (h : WF1 d t)
    (nodeID : SHAMapNodeID) (hd : nodeID.mDepth = d) (hd0 : 0 < d) {x : SHAMapItem × TNType} (hx : x ∈ t.leaves)
    (hk : x.1.tag = tag) :
    WF1 d (delPath false tag type t nodeID) ∧ Replaces tag none type t (delPath false tag type t nodeID) := by
  induction h generalizing nodeID with
  | empty => exact absurd hx List.not_mem_nil
  | leaf =>
    rw [leaves_leaf, List.mem_singleton] at hx
    subst hx
    exact ⟨WF1.empty, replaces_leaf_empty hk⟩
  | @inner d ch hch hr h2 ih =>
    have hb : nodeID.selectBranch tag = tag.nibble d := by rw [← hd]; rfl
    have hne : ch (nodeID.selectBranch tag) ≠ .empty := hb ▸ hk ▸ ne_empty_of_mem_routed hr (mem_leaves_inner.mp hx)
    obtain ⟨hwf, hrep⟩ := ih (tag.nibble d) (nodeID.getChildNodeID (tag.nibble d)) (by simp [hd])
      (by omega) (hk ▸ hr.mem_child (mem_leaves_inner.mp hx))
    rw [delPath, foldl_walkAbove_inner_of_ne _ _ hne, hb]
    exact delStep1_spec (WF1.inner hch hr h2) hd hd0 hty hwf hrep

/-- The v2 loop below a non-root subtree holding the key. -/
theorem delPath2_spec (type : TNType) {t : SHAMapAbstractNode} (h : WF2 t) (nodeID : SHAMapNodeID)
    (hd : t.isInner = true → nodeID.mDepth = t.depth)
    (hnr : t.isInner = true → nodeID.isRoot = false) {x : SHAMapItem × TNType} (hx : x ∈ t.leaves)
    (hk : x.1.tag = tag) :
    WF2 (delPath true tag type t nodeID) ∧ Replaces tag none type t (delPath true tag type t nodeID) := by
  induction h generalizing nodeID with
  | empty => exact absurd hx List.not_mem_nil
  | leaf =>
    rw [leaves_leaf, List.mem_singleton] at hx
    subst hx
    exact ⟨WF2.empty, replaces_leaf_empty hk⟩
  | @innerV2 d c ch hch hr hc h2 ih =>
    have hd' : nodeID.mDepth = d := hd rfl
    have hb : nodeID.selectBranch tag = tag.nibble d := by rw [← hd']; rfl
    have hcp := hasCommonPrefix_of_mem hc hx hk
    have hne : ch (tag.nibble d) ≠ .empty := hk ▸ ne_empty_of_mem_routed hr (mem_leaves_innerV2.mp hx)
    have hdesc : Descends tag d c ch nodeID := ⟨hcp, hb ▸ hne, WF2.isV1Inner_eq_false (hch _)⟩
    obtain ⟨hwf, hrep⟩ := ih (tag.nibble d) (v2ChildID (ch (tag.nibble d)))
      (fun hi => v2ChildID_mDepth hi (WF2.isV1Inner_eq_false (hch _)))
      (fun hi => isRoot_eq_false (by
        rw [v2ChildID_mDepth hi (WF2.isV1Inner_eq_false (hch _))]
        have := WF2Inner.lt_depth ⟨hch, hr⟩ hc hi
        omega))
      (hk ▸ hr.mem_child (mem_leaves_innerV2.mp hx))
    rw [delPath, foldl_walkAbove_innerV2_of_descends _ _ hdesc, hb]
    exact delStep2_spec (WF2.innerV2 hch hr hc h2) hd' (hnr rfl) hcp hwf hrep

end Path

/-! ## The whole map -/

section Map

variable {m : SHAMap} {id : UInt256}

/-- `delItem` refuses a key the walk does not find, and returns the map unchanged. -/
theorem delItem_of_findKey_eq_none (hk : m.findKey id = none) : m.delItem id = (false, m) := by
  rw [findKey_eq_stopLeaf] at hk
  have hkey := stopLeaf_eq_none_iff.mp hk
  by_cases hne : m.root = .empty
  · simp [delItem, hne, walkTowardsKey]
  · rw [delItem, walkTowardsKey_snd hne]
    generalize walkStop id m.root .root = s at hkey ⊢
    obtain ⟨n, nid⟩ := s
    cases n with
    | leaf it ty =>
      have : it.tag ≠ id := by simpa [isLeaf, key] using hkey
      simp [this]
    | _ => rfl

/-- `delItem` on a key the walk finds runs its loop from the leaf holding it. -/
theorem delItem_of_findKey {x : SHAMapItem × TNType} (hk : m.findKey id = some x) :
    m.delItem id = (true, ⟨delPath m.isV2 id x.2 m.root .root⟩) := by
  rw [findKey_eq_stopLeaf, stopLeaf_eq_some_iff] at hk
  have hne : m.root ≠ .empty := fun he => by
    simp [he, walkStop, walkTowardsKey] at hk
  rw [delItem, walkTowardsKey_snd hne]
  simp only [hk.1, hk.2, if_true]
  rfl

/-- `delItem` on a map that keeps its invariants and holds the key: it succeeds, and the new map
keeps the invariants and the version and holds the old items but the key's. -/
theorem delItem_of_findKey_eq_some (h : m.Invariants) {x : SHAMapItem × TNType} (hk : m.findKey id = some x) :
    ∃ root, m.delItem id = (true, ⟨root⟩) ∧ SHAMap.Invariants ⟨root⟩ ∧ isV2 ⟨root⟩ = m.isV2 ∧
      Replaces id none x.2 m.root root := by
  obtain ⟨hx, hkx⟩ := (lookup_eq_some_iff h).mp (by rw [← findKey_eq h]; exact hk)
  refine ⟨_, delItem_of_findKey hk, ?_⟩
  rcases h with ⟨ch, hroot, hin⟩ | ⟨ch, hroot, hin⟩
  · rw [hroot] at hx
    have hty := WF1.isLeafType_of_mem (hin.1 _) (hin.2.mem_child (mem_leaves_inner.mp hx))
    have hne := hkx ▸ ne_empty_of_mem_routed hin.2 (mem_leaves_inner.mp hx)
    obtain ⟨hwf, hrep⟩ := delPath1_spec hty (hin.1 _) (SHAMapNodeID.root.getChildNodeID (id.nibble 0))
      (by simp) (by simp) (hkx ▸ hin.2.mem_child (mem_leaves_inner.mp hx)) hkx
    have hv : m.isV2 = false := by simp [isV2, hroot]
    -- the root takes its rebuilt child and is never dropped
    have heq : delPath false id x.2 (.inner ch) .root = .inner (Function.update ch (id.nibble 0)
        (delPath false id x.2 (ch (id.nibble 0)) (SHAMapNodeID.root.getChildNodeID (id.nibble 0)))) := by
      rw [delPath, foldl_walkAbove_inner_of_ne _ _ hne]
      rfl
    rw [hv, hroot, heq]
    exact ⟨Or.inl ⟨_, rfl, WF1Inner.setChild hin hwf hrep⟩, rfl, hrep.setChild hin.2⟩
  · rw [hroot] at hx
    have hcp : hasCommonPrefix 0 (BaseUInt.zero 32) id = true :=
      (hasCommonPrefix_iff _ _ _).mpr (AgreeBelow.zero _ _)
    have hne := hkx ▸ ne_empty_of_mem_routed hin.2 (mem_leaves_innerV2.mp hx)
    have hdesc : Descends id 0 (BaseUInt.zero 32) ch .root := ⟨hcp, hne, WF2.isV1Inner_eq_false (hin.1 _)⟩
    obtain ⟨hwf, hrep⟩ := delPath2_spec x.2 (hin.1 _) (v2ChildID (ch (id.nibble 0)))
      (fun hi => v2ChildID_mDepth hi (WF2.isV1Inner_eq_false (hin.1 _)))
      (fun hi => isRoot_eq_false (by
        rw [v2ChildID_mDepth hi (WF2.isV1Inner_eq_false (hin.1 _))]
        exact WF2Inner.lt_depth hin (fun x _ => keyPrefix_zero x.1.tag) hi))
      (hkx ▸ hin.2.mem_child (mem_leaves_innerV2.mp hx)) hkx
    have hv : m.isV2 = true := by simp [isV2, hroot]
    have heq : delPath true id x.2 (.innerV2 0 (BaseUInt.zero 32) ch) .root =
        .innerV2 0 (BaseUInt.zero 32) (Function.update ch (id.nibble 0)
          (delPath true id x.2 (ch (id.nibble 0)) (v2ChildID (ch (id.nibble 0))))) := by
      rw [delPath, foldl_walkAbove_innerV2_of_descends _ _ hdesc]
      rfl
    rw [hv, hroot, heq]
    exact ⟨Or.inr ⟨_, rfl, WF2Inner.setChild hin hwf hrep⟩, rfl, (hrep.setChild hin.2).innerV2⟩

end Map

end SHAMap

end Ripple
