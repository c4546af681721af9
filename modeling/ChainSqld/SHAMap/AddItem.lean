import ChainSqld.SHAMap.Replaces

/-!
# Adding and updating an item

`addGiveItem` changes the node where the walk towards the new key stopped and relinks the path
above it. What it puts there (`addAtStop1`, `addAtStop2`) depends on that node:

- an inner node whose branch for the key is free takes the new leaf in that branch;
- a v1 leaf is split into a chain of inner nodes down to the depth where the two keys part
  (`splitChain`);
- a v2 leaf and the new one go below a new node at the depth where they part (`setChildren`);
- a v2 node whose prefix the key leaves gets a new parent at the depth where they part
  (`splitV2`).

Each of these is canonical and holds the old items and the new one; the rebuilt path then is too
(`addPath1_spec`, `addPath2_spec`), so the whole map keeps its invariants and holds exactly one
more item (`addGiveItem_of_findKey_eq_none`). A key the walk finds is refused
(`addGiveItem_of_findKey`).

`updateGiveItem` puts the new leaf in place of the one holding the key and relinks the path in the
same way (`updateGiveItem_of_findKey_eq_some`).
-/

namespace Ripple

open Prefix SHAMapAbstractNode

namespace SHAMap

/-! ## The v1 split -/

theorem splitLoop_append (tag other : UInt256) (fuel : Nat) (nodeID : SHAMapNodeID)
    (S : SharedPtrNodeStack) :
    splitLoop tag other fuel nodeID S =
      ((splitLoop tag other fuel nodeID []).1, (splitLoop tag other fuel nodeID []).2 ++ S) := by
  induction fuel generalizing nodeID S with
  | zero => rfl
  | succ fuel ih =>
    simp only [splitLoop]
    split
    · rw [ih _ ((.inner noChildren, nodeID) :: S), ih _ [(.inner noChildren, nodeID)]]
      simp
    · rfl

/-- The node of the v1 split that holds both leaves. -/
def splitBottom (item other : SHAMapItem) (type : TNType) (nodeID : SHAMapNodeID) : SHAMapAbstractNode :=
  ((SHAMapAbstractNode.inner noChildren).setChild (nodeID.selectBranch item.tag) (.leaf item type)).setChild
    (nodeID.selectBranch other.tag) (.leaf other type)

/-- What the v1 split puts in place of the leaf `other`: the chain `splitLoop` pushes, relinked
above the node holding both leaves. -/
def splitChain (item other : SHAMapItem) (type : TNType) (fuel : Nat) (nodeID : SHAMapNodeID) :
    SHAMapAbstractNode :=
  dirtyUp (splitLoop item.tag other.tag fuel nodeID []).2 item.tag
    (splitBottom item other type (splitLoop item.tag other.tag fuel nodeID []).1)

theorem splitChain_of_eq {item other : SHAMapItem} {type : TNType} {fuel : Nat} {nodeID : SHAMapNodeID}
    (h : nodeID.selectBranch item.tag = nodeID.selectBranch other.tag) :
    splitChain item other type (fuel + 1) nodeID =
      .inner (Function.update noChildren (nodeID.selectBranch item.tag)
        (splitChain item other type fuel (nodeID.getChildNodeID (nodeID.selectBranch item.tag)))) := by
  rw [splitChain, splitLoop, if_pos h, splitLoop_append _ _ _ _ [(.inner noChildren, nodeID)]]
  simp only [dirtyUp, List.foldl_append, List.foldl_cons, List.foldl_nil]
  rfl

theorem splitChain_of_ne {item other : SHAMapItem} {type : TNType} {fuel : Nat} {nodeID : SHAMapNodeID}
    (h : nodeID.selectBranch item.tag ≠ nodeID.selectBranch other.tag) :
    splitChain item other type (fuel + 1) nodeID = splitBottom item other type nodeID := by
  simp [splitChain, splitLoop, h, dirtyUp]

/-- A node with one non-empty slot has the leaves of that slot. -/
theorem mem_leaves_single {b : Fin 16} {c : SHAMapAbstractNode} {y : SHAMapItem × TNType} :
    y ∈ (SHAMapAbstractNode.inner (Function.update noChildren b c)).leaves ↔ y ∈ c.leaves := by
  rw [mem_leaves_inner, mem_leaves_update]
  simp [noChildren]

theorem two_le_length_of_mem {α : Type} {l : List α} {x y : α} (hx : x ∈ l) (hy : y ∈ l) (hxy : x ≠ y) :
    2 ≤ l.length := by
  match l, hx, hy with
  | [a], hx, hy =>
    rw [List.mem_singleton] at hx hy
    exact absurd (hx.trans hy.symm) hxy
  | _ :: _ :: _, _, _ => simp

/-- The leaves of a new node with two children in two different branches. -/
theorem mem_leaves_pair {b₁ b₂ : Fin 16} (hb : b₁ ≠ b₂) (c₁ c₂ : SHAMapAbstractNode) (i : Fin 16)
    (y : SHAMapItem × TNType) :
    y ∈ (Function.update (Function.update noChildren b₁ c₁) b₂ c₂ i).leaves ↔
      (i = b₁ ∧ y ∈ c₁.leaves) ∨ (i = b₂ ∧ y ∈ c₂.leaves) := by
  by_cases h₂ : i = b₂
  · subst h₂
    simp [hb.symm]
  · rw [Function.update_of_ne h₂]
    by_cases h₁ : i = b₁
    · subst h₁; simp [h₂]
    · rw [Function.update_of_ne h₁]; simp [noChildren, h₁, h₂]

variable {item other : SHAMapItem} {type : TNType}

theorem splitBottom_eq (nodeID : SHAMapNodeID) :
    splitBottom item other type nodeID = .inner (Function.update
      (Function.update noChildren (nodeID.selectBranch item.tag) (.leaf item type))
      (nodeID.selectBranch other.tag) (.leaf other type)) := rfl

/-- The node holding both leaves of a v1 split is canonical at a depth where their keys part. -/
theorem splitBottom_spec {nodeID : SHAMapNodeID}
    (hne : nodeID.selectBranch item.tag ≠ nodeID.selectBranch other.tag) (hty : type.isLeafType = true) :
    WF1 nodeID.mDepth (splitBottom item other type nodeID) ∧
      ∀ y, y ∈ (splitBottom item other type nodeID).leaves ↔ y = (item, type) ∨ y = (other, type) := by
  set b1 := nodeID.selectBranch item.tag
  set b2 := nodeID.selectBranch other.tag
  have hslot : ∀ i y, y ∈ (Function.update (Function.update noChildren b1 (.leaf item type)) b2
      (.leaf other type) i).leaves ↔ (i = b1 ∧ y = (item, type)) ∨ (i = b2 ∧ y = (other, type)) := by
    intro i y
    simpa using mem_leaves_pair hne (.leaf item type) (.leaf other type) i y
  have hmem : ∀ y, y ∈ (splitBottom item other type nodeID).leaves ↔ y = (item, type) ∨ y = (other, type) := by
    intro y
    rw [splitBottom_eq, mem_leaves_inner]
    constructor
    · rintro ⟨i, hi⟩
      rcases (hslot i y).mp hi with ⟨-, h⟩ | ⟨-, h⟩
      · exact Or.inl h
      · exact Or.inr h
    · rintro (h | h)
      · exact ⟨b1, (hslot b1 y).mpr (Or.inl ⟨rfl, h⟩)⟩
      · exact ⟨b2, (hslot b2 y).mpr (Or.inr ⟨rfl, h⟩)⟩
  refine ⟨?_, hmem⟩
  rw [splitBottom_eq]
  refine WF1.inner (fun b => ?_) (fun b y hy => ?_) ?_
  · by_cases h2 : b = b2
    · rw [h2, Function.update_self]; exact WF1.leaf hty
    · rw [Function.update_of_ne h2]
      by_cases h1 : b = b1
      · rw [h1, Function.update_self]; exact WF1.leaf hty
      · rw [Function.update_of_ne h1]; exact WF1.empty
  · rcases (hslot b y).mp hy with ⟨rfl, rfl⟩ | ⟨rfl, rfl⟩ <;> rfl
  · have hitem : item.tag ≠ other.tag := fun h => hne (by simp only [b1, b2, h])
    rw [← splitBottom_eq]
    exact two_le_length_of_mem ((hmem _).mpr (Or.inl rfl)) ((hmem _).mpr (Or.inr rfl))
      (fun h => hitem (congrArg (fun x => x.1.tag) h))

/-- The v1 split chain is canonical and holds the two leaves, given enough depth for the keys to
part. -/
theorem splitChain_spec (hty : type.isLeafType = true) (hne : item.tag ≠ other.tag) :
    ∀ fuel (nodeID : SHAMapNodeID), AgreeBelow nodeID.mDepth item.tag.nibble other.tag.nibble →
      firstDiffDepth item.tag other.tag < nodeID.mDepth + fuel →
      WF1 nodeID.mDepth (splitChain item other type fuel nodeID) ∧
        ∀ y, y ∈ (splitChain item other type fuel nodeID).leaves ↔ y = (item, type) ∨ y = (other, type) := by
  obtain ⟨-, hfag, hfne⟩ := firstDiffDepth_spec hne
  intro fuel
  induction fuel with
  | zero =>
    intro nodeID hag hlt
    exact absurd (AgreeBelow.le_of_ne hag hfne) (by omega)
  | succ fuel ih =>
    intro nodeID hag hlt
    by_cases h : nodeID.selectBranch item.tag = nodeID.selectBranch other.tag
    · rw [splitChain_of_eq h]
      have hag' : AgreeBelow (nodeID.getChildNodeID (nodeID.selectBranch item.tag)).mDepth
          item.tag.nibble other.tag.nibble := by
        rw [SHAMapNodeID.getChildNodeID_mDepth]
        exact agreeBelow_succ_iff.mpr ⟨hag, h⟩
      have hle : nodeID.mDepth + 1 ≤ firstDiffDepth item.tag other.tag :=
        AgreeBelow.le_of_ne hag' hfne
      obtain ⟨hwf, hmem⟩ := ih _ hag' (by simp; omega)
      refine ⟨WF1.inner (fun b => ?_) (fun b y hy => ?_) ?_, fun y => ?_⟩
      · by_cases hb : b = nodeID.selectBranch item.tag
        · subst hb; simpa using hwf
        · simpa [Function.update_of_ne hb, noChildren] using WF1.empty
      · by_cases hb : b = nodeID.selectBranch item.tag
        · subst hb
          rw [Function.update_self] at hy
          rcases (hmem y).mp hy with rfl | rfl
          · rfl
          · exact h.symm
        · simp [Function.update_of_ne hb, noChildren] at hy
      · exact two_le_length_of_mem (mem_leaves_single.mpr ((hmem _).mpr (Or.inl rfl)))
          (mem_leaves_single.mpr ((hmem _).mpr (Or.inr rfl)))
          (fun he => hne (congrArg (fun x => x.1.tag) he))
      · rw [mem_leaves_single, hmem]
    · rw [splitChain_of_ne h]
      exact splitBottom_spec h hty

/-! ## The v1 path -/

/-- What the v1 `addGiveItem` puts where the walk stopped: the new leaf in the free branch of an
inner node, or the split chain in place of a leaf. -/
def addAtStop1 (item : SHAMapItem) (type : TNType) (s : SHAMapAbstractNode × SHAMapNodeID) :
    SHAMapAbstractNode :=
  match s.1 with
  | .leaf other _ => splitChain item other type 64 s.2
  | n => n.setChild (s.2.selectBranch item.tag) (.leaf item type)

/-- The subtree the v1 `addGiveItem` builds from `t`: the stop node replaced, the path relinked. -/
def addPath1 (item : SHAMapItem) (type : TNType) (t : SHAMapAbstractNode) (nodeID : SHAMapNodeID) :
    SHAMapAbstractNode :=
  (walkAbove item.tag t nodeID).foldl (dirtyStep item.tag) (addAtStop1 item type (walkStop item.tag t nodeID))

/-- A subtree holding the leaves of `old` and one new leaf whose key `old` lacks replaces the items
of that key. -/
theorem replaces_of_mem_leaves {old new : SHAMapAbstractNode} (habs : item.tag ∉ old.keys)
    (h : ∀ y, y ∈ new.leaves ↔ y ∈ old.leaves ∨ y = (item, type)) :
    Replaces item.tag (some item) type old new where
  tag_eq _ h := by cases h; rfl
  items_iff it := by
    simp only [mem_items, h, Prod.mk.injEq, Option.some.injEq]
    constructor
    · rintro ⟨ty, hold | ⟨rfl, -⟩⟩
      · exact Or.inl ⟨⟨ty, hold⟩, fun ht => habs (mem_keys.mpr ⟨_, hold, ht⟩)⟩
      · exact Or.inr rfl
    · rintro (⟨⟨ty, hold⟩, -⟩ | rfl)
      · exact ⟨ty, Or.inl hold⟩
      · exact ⟨type, Or.inr ⟨rfl, rfl⟩⟩
  types y hy := by
    rcases (h y).mp hy with hold | rfl
    · exact Or.inl hold
    · exact Or.inr rfl

theorem replaces_empty_leaf : Replaces item.tag (some item) type .empty (.leaf item type) :=
  replaces_of_mem_leaves (by simp [keys]) (by simp)

theorem replaces_splitChain {ty : TNType} {fuel : Nat} {nodeID : SHAMapNodeID}
    (hne : other.tag ≠ item.tag)
    (hmem : ∀ y, y ∈ (splitChain item other type fuel nodeID).leaves ↔ y = (item, type) ∨ y = (other, type)) :
    Replaces item.tag (some item) type (.leaf other ty) (splitChain item other type fuel nodeID) where
  tag_eq _ h := by cases h; rfl
  items_iff it := by
    simp only [mem_items, hmem, leaves_leaf, List.mem_singleton, Prod.mk.injEq, Option.some.injEq]
    constructor
    · rintro ⟨_, ⟨rfl, -⟩ | ⟨rfl, -⟩⟩
      · exact Or.inr rfl
      · exact Or.inl ⟨⟨ty, rfl, rfl⟩, hne⟩
    · rintro (⟨⟨_, rfl, -⟩, -⟩ | rfl)
      · exact ⟨type, Or.inr ⟨rfl, rfl⟩⟩
      · exact ⟨type, Or.inl ⟨rfl, rfl⟩⟩
  types y hy := by
    rcases (hmem y).mp hy with rfl | rfl <;> exact Or.inr rfl

variable {d : Nat} {ch : Fin 16 → SHAMapAbstractNode} {nodeID : SHAMapNodeID}

/-- One level of the v1 path: below an inner node, the new subtree differs in the slot of the key
only, where it holds the new leaf or the subtree the path builds from that slot. -/
theorem addPath1_inner (hty : type.isLeafType = true) (nodeID : SHAMapNodeID) (hd : nodeID.mDepth = d)
    (hchild : ch (item.tag.nibble d) ≠ .empty →
      WF1 (d + 1) (addPath1 item type (ch (item.tag.nibble d))
          (nodeID.getChildNodeID (item.tag.nibble d))) ∧
        Replaces item.tag (some item) type (ch (item.tag.nibble d))
          (addPath1 item type (ch (item.tag.nibble d)) (nodeID.getChildNodeID (item.tag.nibble d)))) :
    ∃ c, addPath1 item type (.inner ch) nodeID = .inner (Function.update ch (item.tag.nibble d) c) ∧
      WF1 (d + 1) c ∧ Replaces item.tag (some item) type (ch (item.tag.nibble d)) c := by
  have hb : nodeID.selectBranch item.tag = item.tag.nibble d := by rw [← hd]; rfl
  by_cases he : ch (item.tag.nibble d) = .empty
  · refine ⟨.leaf item type, ?_, WF1.leaf hty, he ▸ replaces_empty_leaf⟩
    rw [← hb] at he
    simp only [addPath1, walkStop_inner_of_empty he, walkAbove_inner_of_empty he, List.foldl_nil,
      addAtStop1, setChild_inner, hb]
  · refine ⟨_, ?_, hchild he⟩
    rw [← hb] at he
    rw [addPath1, foldl_walkAbove_inner_of_ne _ _ he, walkStop_inner_of_ne he]
    simp only [dirtyStep, setChild_inner, hb]
    rfl

/-- The keys of a slot at depth `d`, routed by the key's nibble, agree with the key one level
further. -/
theorem agreeBelow_succ_of_routed {k : UInt256} (hr : Routed d ch)
    (hag : ∀ k' ∈ (SHAMapAbstractNode.inner ch).keys, AgreeBelow d k'.nibble k.nibble) :
    ∀ k' ∈ (ch (k.nibble d)).keys, AgreeBelow (d + 1) k'.nibble k.nibble := by
  intro k' hk'
  obtain ⟨x, hx, rfl⟩ := mem_keys.mp hk'
  refine agreeBelow_succ_iff.mpr ⟨hag _ (mem_keys.mpr ⟨x, mem_leaves_inner.mpr ⟨_, hx⟩, rfl⟩), ?_⟩
  exact hr _ x hx

theorem keys_subset_inner {b : Fin 16} : (ch b).keys ⊆ (SHAMapAbstractNode.inner ch).keys := by
  intro k hk
  obtain ⟨x, hx, rfl⟩ := mem_keys.mp hk
  exact mem_keys.mpr ⟨x, mem_leaves_inner.mpr ⟨b, hx⟩, rfl⟩

/-- The v1 path below a non-empty slot at depth `d` whose keys agree with the new key below `d`
and do not include it: canonical, holding the old items and the new one. The induction is on the
shape; its inner case is `addPath1_inner`, its leaf case the split chain. -/
theorem addPath1_spec (hty : type.isLeafType = true) {t : SHAMapAbstractNode} (h : WF1 d t)
    (ht : t ≠ .empty) (nodeID : SHAMapNodeID) (hd : nodeID.mDepth = d) (habs : item.tag ∉ t.keys)
    (hag : ∀ k ∈ t.keys, AgreeBelow d k.nibble item.tag.nibble) :
    WF1 d (addPath1 item type t nodeID) ∧
      Replaces item.tag (some item) type t (addPath1 item type t nodeID) := by
  induction h generalizing nodeID with
  | empty => exact absurd rfl ht
  | @leaf d other ty _ =>
    have hne : item.tag ≠ other.tag := fun h => habs (by simp [keys, h])
    obtain ⟨hwf, hmem⟩ := splitChain_spec hty hne 64 nodeID
      (hd ▸ (hag other.tag (by simp [keys])).symm) (by have := (firstDiffDepth_spec hne).1; omega)
    refine ⟨hd ▸ hwf, replaces_splitChain (Ne.symm hne) hmem⟩
  | @inner d ch hch hr h2 ih =>
    obtain ⟨c, heq, hwf, hrep⟩ := addPath1_inner hty nodeID hd fun hne =>
      ih _ hne _ (by simp [hd]) (fun hk => habs (keys_subset_inner hk)) (agreeBelow_succ_of_routed hr hag)
    rw [heq]
    exact ⟨WF1.setChild (WF1.inner hch hr h2) hwf hrep, hrep.setChild hr⟩

/-! ## The v2 path -/

/-- A new v2 node with two non-empty children in two branches, each routed by its branch, is
canonical. -/
theorem WF2.pair {d : Nat} {c : UInt256} {b₁ b₂ : Fin 16} (hb : b₁ ≠ b₂) {c₁ c₂ : SHAMapAbstractNode}
    (h₁ : WF2 c₁) (h₂ : WF2 c₂) (hne₁ : c₁ ≠ .empty) (hne₂ : c₂ ≠ .empty)
    (hr₁ : ∀ x ∈ c₁.leaves, x.1.tag.nibble d = b₁) (hr₂ : ∀ x ∈ c₂.leaves, x.1.tag.nibble d = b₂)
    (hc : ∀ x, x ∈ c₁.leaves ∨ x ∈ c₂.leaves → keyPrefix d x.1.tag = c) :
    WF2 (.innerV2 d c (Function.update (Function.update noChildren b₁ c₁) b₂ c₂)) := by
  refine WF2.innerV2 (fun b => ?_) (fun b x hx => ?_) (fun x hx => ?_) ?_
  · by_cases hb₂ : b = b₂
    · rw [hb₂, Function.update_self]; exact h₂
    · rw [Function.update_of_ne hb₂]
      by_cases hb₁ : b = b₁
      · rw [hb₁, Function.update_self]; exact h₁
      · rw [Function.update_of_ne hb₁]; exact WF2.empty
  · rcases (mem_leaves_pair hb c₁ c₂ b x).mp hx with ⟨rfl, h⟩ | ⟨rfl, h⟩
    · exact hr₁ x h
    · exact hr₂ x h
  · obtain ⟨i, hi⟩ := mem_leaves_innerV2.mp hx
    rcases (mem_leaves_pair hb c₁ c₂ i x).mp hi with ⟨-, h⟩ | ⟨-, h⟩
    · exact hc x (Or.inl h)
    · exact hc x (Or.inr h)
  · refine one_lt_getBranchCount_iff.mpr ⟨b₁, b₂, hb, ?_, ?_⟩
    · simpa [Function.update_of_ne hb] using hne₁
    · simpa using hne₂

theorem mem_leaves_pair_innerV2 {d : Nat} {c : UInt256} {b₁ b₂ : Fin 16} (hb : b₁ ≠ b₂)
    {c₁ c₂ : SHAMapAbstractNode} (y : SHAMapItem × TNType) :
    y ∈ (SHAMapAbstractNode.innerV2 d c (Function.update (Function.update noChildren b₁ c₁) b₂ c₂)).leaves ↔
      y ∈ c₁.leaves ∨ y ∈ c₂.leaves := by
  rw [mem_leaves_innerV2]
  constructor
  · rintro ⟨i, hi⟩
    rcases (mem_leaves_pair hb c₁ c₂ i y).mp hi with ⟨-, h⟩ | ⟨-, h⟩
    · exact Or.inl h
    · exact Or.inr h
  · rintro (h | h)
    · exact ⟨b₁, (mem_leaves_pair hb c₁ c₂ b₁ y).mpr (Or.inl ⟨rfl, h⟩)⟩
    · exact ⟨b₂, (mem_leaves_pair hb c₁ c₂ b₂ y).mpr (Or.inr ⟨rfl, h⟩)⟩

/-- The node `setChildren` makes of two leaves whose keys differ is canonical and holds both. -/
theorem setChildren_spec {ty : TNType} (hty₀ : ty.isLeafType = true) (hty : type.isLeafType = true)
    (hne : other.tag ≠ item.tag) :
    WF2 (setChildren (.leaf other ty) (.leaf item type)) ∧
      ∀ y, y ∈ (setChildren (.leaf other ty) (.leaf item type)).leaves ↔
        y ∈ (SHAMapAbstractNode.leaf other ty).leaves ∨ y = (item, type) := by
  obtain ⟨-, hag, hdiff⟩ := firstDiffDepth_spec hne
  refine ⟨WF2.pair hdiff (WF2.leaf hty₀) (WF2.leaf hty) (by simp) (by simp) (by simp [key])
    (by simp [key]) fun x hx => ?_, fun y => ?_⟩
  · simp only [leaves_leaf, List.mem_singleton] at hx
    rcases hx with rfl | rfl
    · rfl
    · exact keyPrefix_eq_iff.mpr hag.symm
  · simp only [setChildren, key]
    rw [mem_leaves_pair_innerV2 hdiff]
    simp

/-- The new parent `splitV2` makes for a v2 node whose prefix the key leaves. -/
theorem splitV2_eq (node : SHAMapAbstractNode) (r : Nat) (common tag : UInt256) (newLeaf : SHAMapAbstractNode) :
    splitV2 node r common tag newLeaf = .innerV2 r (keyPrefix r tag)
      (Function.update (Function.update noChildren (common.nibble r) node) (tag.nibble r) newLeaf) := rfl

/-- Every leaf below a v2 node agrees with the node's prefix below its depth. -/
theorem agreeBelow_common_of_keyPrefix {d : Nat} {c k : UInt256} (hk : keyPrefix d k = c) :
    AgreeBelow d k.nibble c.nibble := fun i hi => by
  rw [← hk, nibble_keyPrefix, if_pos hi]

/-- The v2 split: a canonical node whose prefix the new key leaves, and the new leaf, go below a new
canonical node at the depth where the key parts from the prefix. -/
theorem splitV2_spec {d : Nat} {c : UInt256} {ch : Fin 16 → SHAMapAbstractNode} (hty : type.isLeafType = true)
    (h : WF2 (.innerV2 d c ch)) (hcp : hasCommonPrefix d c item.tag = false) :
    WF2 (splitV2 (.innerV2 d c ch) (getCommonPrefix d c item.tag) c item.tag (.leaf item type)) ∧
      ∀ y, y ∈ (splitV2 (.innerV2 d c ch) (getCommonPrefix d c item.tag) c item.tag (.leaf item type)).leaves ↔
        y ∈ (SHAMapAbstractNode.innerV2 d c ch).leaves ∨ y = (item, type) := by
  obtain ⟨hle, hag, hdiff⟩ := getCommonPrefix_spec d c item.tag
  set r := getCommonPrefix d c item.tag
  have hlt : r < d := by
    refine lt_of_le_of_ne hle fun hrd => ?_
    rw [hrd] at hag
    rw [(hasCommonPrefix_iff d c item.tag).mpr hag] at hcp
    exact absurd hcp (by decide)
  have hpre : ∀ x ∈ (SHAMapAbstractNode.innerV2 d c ch).leaves, AgreeBelow d x.1.tag.nibble c.nibble := by
    cases h with
    | innerV2 _ _ hc _ => exact fun x hx => agreeBelow_common_of_keyPrefix (hc x hx)
  rw [splitV2_eq]
  refine ⟨WF2.pair (hdiff hlt) h (WF2.leaf hty) (by simp) (by simp) (fun x hx => hpre x hx r hlt)
    (by simp) fun x hx => ?_, fun y => by rw [mem_leaves_pair_innerV2 (hdiff hlt)]; simp⟩
  rcases hx with hx | hx
  · exact keyPrefix_eq_iff.mpr ((hpre x hx).mono hlt.le |>.trans hag)
  · simp only [leaves_leaf, List.mem_singleton] at hx
    rw [hx]

/-- What the v2 `addGiveItem` puts where the walk stopped: the new leaf in the free branch of a node
whose prefix the key shares, a new parent for a node whose prefix it leaves, a new node holding a
leaf and the new leaf. -/
def addAtStop2 (item : SHAMapItem) (type : TNType) (s : SHAMapAbstractNode × SHAMapNodeID) :
    SHAMapAbstractNode :=
  match s.1 with
  | .innerV2 depth common _ =>
    if hasCommonPrefix depth common item.tag then s.1.setChild (s.2.selectBranch item.tag) (.leaf item type)
    else splitV2 s.1 (getCommonPrefix depth common item.tag) common item.tag (.leaf item type)
  | n => setChildren n (.leaf item type)

/-- The subtree the v2 `addGiveItem` builds from `t`. -/
def addPath2 (item : SHAMapItem) (type : TNType) (t : SHAMapAbstractNode) (nodeID : SHAMapNodeID) :
    SHAMapAbstractNode :=
  (walkAbove item.tag t nodeID).foldl (dirtyStep item.tag) (addAtStop2 item type (walkStop item.tag t nodeID))

variable {c : UInt256}

/-- One level of the v2 path below a node whose prefix the key shares. -/
theorem addPath2_innerV2 (hty : type.isLeafType = true) (hcp : hasCommonPrefix d c item.tag = true)
    (hv : ∀ b, isV1Inner (ch b) = false) (nodeID : SHAMapNodeID) (hd : nodeID.mDepth = d)
    (hchild : ch (item.tag.nibble d) ≠ .empty →
      WF2 (addPath2 item type (ch (item.tag.nibble d)) (v2ChildID (ch (item.tag.nibble d)))) ∧
        Replaces item.tag (some item) type (ch (item.tag.nibble d))
          (addPath2 item type (ch (item.tag.nibble d)) (v2ChildID (ch (item.tag.nibble d))))) :
    ∃ c', addPath2 item type (.innerV2 d c ch) nodeID = .innerV2 d c (Function.update ch (item.tag.nibble d) c') ∧
      WF2 c' ∧ Replaces item.tag (some item) type (ch (item.tag.nibble d)) c' := by
  have hb : nodeID.selectBranch item.tag = item.tag.nibble d := by rw [← hd]; rfl
  by_cases he : ch (item.tag.nibble d) = .empty
  · refine ⟨.leaf item type, ?_, WF2.leaf hty, he ▸ replaces_empty_leaf⟩
    have hnd : ¬ Descends item.tag d c ch nodeID := fun h => h.2.1 (hb ▸ he)
    simp only [addPath2, walkStop_innerV2_of_not hnd, walkAbove_innerV2_of_not hnd, List.foldl_nil,
      addAtStop2, if_pos hcp, setChild_innerV2, hb]
  · have hdesc : Descends item.tag d c ch nodeID := ⟨hcp, hb ▸ he, hv _⟩
    refine ⟨_, ?_, hchild he⟩
    rw [addPath2, foldl_walkAbove_innerV2_of_descends _ _ hdesc, walkStop_innerV2_of_descends hdesc]
    simp only [dirtyStep, setChild_innerV2, hb]
    rfl

theorem keys_subset_innerV2 {b : Fin 16} : (ch b).keys ⊆ (SHAMapAbstractNode.innerV2 d c ch).keys := by
  intro k hk
  obtain ⟨x, hx, rfl⟩ := mem_keys.mp hk
  exact mem_keys.mpr ⟨x, mem_leaves_innerV2.mpr ⟨b, hx⟩, rfl⟩

/-- The v2 path below a non-empty canonical v2 subtree that lacks the new key: canonical, holding
the old items and the new one. -/
theorem addPath2_spec (hty : type.isLeafType = true) {t : SHAMapAbstractNode} (h : WF2 t)
    (ht : t ≠ .empty) (nodeID : SHAMapNodeID) (hd : t.isInner = true → nodeID.mDepth = t.depth)
    (habs : item.tag ∉ t.keys) :
    WF2 (addPath2 item type t nodeID) ∧ Replaces item.tag (some item) type t (addPath2 item type t nodeID) := by
  induction h generalizing nodeID with
  | empty => exact absurd rfl ht
  | @leaf other ty hty₀ =>
    have hne : other.tag ≠ item.tag := fun h => habs (by simp [keys, h])
    obtain ⟨hwf, hmem⟩ := setChildren_spec hty₀ hty hne
    exact ⟨hwf, replaces_of_mem_leaves habs hmem⟩
  | @innerV2 d c ch hch hr hc h2 ih =>
    by_cases hcp : hasCommonPrefix d c item.tag = true
    · obtain ⟨c', heq, hwf, hrep⟩ := addPath2_innerV2 hty hcp (fun b => WF2.isV1Inner_eq_false (hch b)) nodeID
        (hd rfl) fun hne => ih _ hne _ (fun hi => v2ChildID_mDepth hi (WF2.isV1Inner_eq_false (hch _)))
          fun hk => habs (keys_subset_innerV2 hk)
      rw [heq]
      exact ⟨WF2.setChild (WF2.innerV2 hch hr hc h2) hwf hrep.ne_empty hrep hcp,
        (hrep.setChild hr).innerV2⟩
    · rw [Bool.not_eq_true] at hcp
      have hnd : ¬ Descends item.tag d c ch nodeID := fun h => by rw [h.1] at hcp; exact Bool.noConfusion hcp
      have heq : addPath2 item type (.innerV2 d c ch) nodeID =
          splitV2 (.innerV2 d c ch) (getCommonPrefix d c item.tag) c item.tag (.leaf item type) := by
        simp only [addPath2, walkStop_innerV2_of_not hnd, walkAbove_innerV2_of_not hnd, List.foldl_nil,
          addAtStop2, hcp, Bool.false_eq_true, if_false]
      obtain ⟨hwf, hmem⟩ := splitV2_spec hty (WF2.innerV2 hch hr hc h2) hcp
      rw [heq]
      exact ⟨hwf, replaces_of_mem_leaves habs hmem⟩

/-! ## Where the walk stops -/

section Stop

variable {id : UInt256}

/-- One level of a v1 walk: it stops at this inner node, or where the walk in the key's slot
stops. -/
theorem walkStop_inner_kind {ch : Fin 16 → SHAMapAbstractNode} {nodeID : SHAMapNodeID}
    (hchild : ch (nodeID.selectBranch id) ≠ .empty →
      (isV1Inner (walkStop id (ch (nodeID.selectBranch id)) (nodeID.getChildNodeID (nodeID.selectBranch id))).1 ||
        (walkStop id (ch (nodeID.selectBranch id)) (nodeID.getChildNodeID (nodeID.selectBranch id))).1.isLeaf) = true) :
    (isV1Inner (walkStop id (.inner ch) nodeID).1 || (walkStop id (.inner ch) nodeID).1.isLeaf) = true := by
  by_cases he : ch (nodeID.selectBranch id) = .empty
  · rw [walkStop_inner_of_empty he]; rfl
  · rw [walkStop_inner_of_ne he]; exact hchild he

/-- A v1 walk stops at a v1 inner node or a leaf. -/
theorem WF1.walkStop_kind {d : Nat} {t : SHAMapAbstractNode} (h : WF1 d t) (ht : t ≠ .empty)
    (nodeID : SHAMapNodeID) :
    (isV1Inner (walkStop id t nodeID).1 || (walkStop id t nodeID).1.isLeaf) = true := by
  induction h generalizing nodeID with
  | empty => exact absurd rfl ht
  | leaf => rfl
  | inner _ _ _ ih => exact walkStop_inner_kind fun he => ih _ he _

end Stop

/-! ## The whole map -/

section Map

variable {m : SHAMap} {isTransaction hasMeta : Bool}

/-- `addGiveItem` refuses a key the walk finds, and returns the map unchanged. -/
theorem addGiveItem_of_findKey {x : SHAMapItem × TNType} (hk : m.findKey item.tag = some x) :
    m.addGiveItem item isTransaction hasMeta = (false, m) := by
  have hsome : stopLeaf item.tag m.root .root ≠ none := by
    rw [← findKey_eq_stopLeaf, hk]; simp
  have hkey : ((walkStop item.tag m.root .root).1.isLeaf &&
      (walkStop item.tag m.root .root).1.key == item.tag) = true := by
    simpa using mt stopLeaf_eq_none_iff.mpr hsome
  by_cases hne : m.root = .empty
  · simp [addGiveItem, hne, walkTowardsKey]
  · dsimp only [addGiveItem]
    rw [walkTowardsKey_snd hne]
    simp only [hkey, if_true]

/-- On a v1 map lacking the key, `addGiveItem` returns the subtree `addPath1` builds from the
root. -/
theorem addGiveItem_eq_addPath1 (hroot : m.root = .inner ch) (hin : WF1Inner 0 ch)
    (habs : stopLeaf item.tag m.root .root = none) :
    m.addGiveItem item isTransaction hasMeta =
      (true, ⟨addPath1 item (TNType.ofFlags isTransaction hasMeta) m.root .root⟩) := by
  have hne : m.root ≠ .empty := by rw [hroot]; simp
  have hkind : (isV1Inner (walkStop item.tag m.root .root).1 ||
      (walkStop item.tag m.root .root).1.isLeaf) = true := by
    rw [hroot]
    exact walkStop_inner_kind fun he => WF1.walkStop_kind (hin.1 _) he _
  have hkey := stopLeaf_eq_none_iff.mp habs
  have hv : m.isV2 = false := by simp [isV2, hroot]
  dsimp only [addGiveItem, addPath1]
  rw [walkTowardsKey_snd hne]
  generalize walkStop item.tag m.root .root = s at hkind hkey ⊢
  obtain ⟨n, nid⟩ := s
  simp only at hkind hkey ⊢
  rw [hkey, hv]
  simp only [Bool.false_eq_true, if_false]
  cases n with
  | empty => simp [isV1Inner, isLeaf] at hkind
  | innerV2 => simp [isV1Inner, isLeaf] at hkind
  | inner => rfl
  | leaf other ty =>
    -- the chain `splitLoop` pushes goes on top of the walk's stack and is relinked first
    dsimp only
    rw [splitLoop_append]
    simp only [addAtStop1, splitChain, dirtyUp, List.foldl_append]
    rfl

/-- On a v2 map lacking the key, `addGiveItem` returns the subtree `addPath2` builds from the
root. -/
theorem addGiveItem_eq_addPath2 (hroot : m.root = .innerV2 0 (BaseUInt.zero 32) ch)
    (habs : stopLeaf item.tag m.root .root = none) :
    m.addGiveItem item isTransaction hasMeta =
      (true, ⟨addPath2 item (TNType.ofFlags isTransaction hasMeta) m.root .root⟩) := by
  have hne : m.root ≠ .empty := by rw [hroot]; simp
  have hv1 : isV1Inner m.root = false := by rw [hroot]; rfl
  have hstopne : (walkStop item.tag m.root .root).1 ≠ .empty := walkStop_ne_empty hne _
  have hstopv1 : isV1Inner (walkStop item.tag m.root .root).1 = false := walkStop_isV1Inner hv1 _
  have hdepth : ∀ fr ∈ walkAbove item.tag m.root .root, fr.2.mDepth = fr.1.depth :=
    walkAbove_mDepth hv1 fun _ => by rw [hroot]; rfl
  have hkey := stopLeaf_eq_none_iff.mp habs
  have hv : m.isV2 = true := by simp [isV2, hroot]
  dsimp only [addGiveItem, addPath2]
  rw [walkTowardsKey_snd hne]
  rcases hab : walkAbove item.tag m.root .root with _ | ⟨⟨parent, pid⟩, rest⟩
  · -- the walk stopped at the root, whose empty prefix every key shares
    have hcp : hasCommonPrefix 0 (BaseUInt.zero 32) item.tag = true :=
      (hasCommonPrefix_iff _ _ _).mpr (AgreeBelow.zero _ _)
    rw [walkStop_of_walkAbove_eq_nil hab, hroot] at hkey ⊢
    simp only at hkey ⊢
    simp [hkey, hv, hcp, addAtStop2, dirtyUp]
  · have hpid : pid.mDepth = parent.depth := hdepth _ (by rw [hab]; exact List.mem_cons_self ..)
    generalize walkStop item.tag m.root .root = s at hstopne hstopv1 hkey ⊢
    obtain ⟨n, nid⟩ := s
    simp only at hstopne hstopv1 hkey ⊢
    rw [hkey, hv]
    simp only [Bool.false_eq_true, if_false, if_true]
    cases n with
    | empty => exact absurd rfl hstopne
    | inner => simp [isV1Inner] at hstopv1
    | leaf => rfl
    | innerV2 d c ch' =>
      by_cases hcp : hasCommonPrefix d c item.tag = true
      · simp only [hcp, if_true, addAtStop2]; rfl
      · -- the source sets the parent's slot before relinking it: the same slot, set twice
        have hb : (SHAMapNodeID.mk parent.depth (keyPrefix parent.depth item.tag)).selectBranch item.tag =
            pid.selectBranch item.tag := by
          rw [SHAMapNodeID.selectBranch_mk, ← hpid]; rfl
        simp only [hcp, Bool.false_eq_true, if_false, addAtStop2, dirtyUp, List.foldl_cons, dirtyStep, hb,
          setChild_setChild_self]

/-- `addGiveItem` on a map that keeps its invariants and lacks the key: it succeeds, and the new
map keeps the invariants and the version and holds the old items and the new one. -/
theorem addGiveItem_of_findKey_eq_none (h : m.Invariants) (hk : m.findKey item.tag = none)
    (isTransaction hasMeta : Bool) :
    ∃ root, m.addGiveItem item isTransaction hasMeta = (true, ⟨root⟩) ∧
      SHAMap.Invariants ⟨root⟩ ∧ isV2 ⟨root⟩ = m.isV2 ∧
      Replaces item.tag (some item) (TNType.ofFlags isTransaction hasMeta) m.root root := by
  have hty := TNType.isLeafType_ofFlags isTransaction hasMeta
  have hsl : stopLeaf item.tag m.root .root = none := by rwa [← findKey_eq_stopLeaf]
  have habs : item.tag ∉ m.root.keys := lookup_eq_none_iff.mp (by rwa [← findKey_eq h])
  rcases h with ⟨ch, hroot, hin⟩ | ⟨ch, hroot, hin⟩
  · rw [hroot] at habs
    obtain ⟨c, heq, hwf, hrep⟩ := addPath1_inner hty .root rfl fun hne =>
      addPath1_spec hty (hin.1 _) hne _ (by simp) (fun hk => habs (keys_subset_inner hk))
        (agreeBelow_succ_of_routed hin.2 fun _ _ => AgreeBelow.zero _ _)
    refine ⟨_, addGiveItem_eq_addPath1 hroot hin hsl, ?_, ?_, ?_⟩ <;> rw [hroot, heq]
    · exact Or.inl ⟨_, rfl, WF1Inner.setChild hin hwf hrep⟩
    · simp [isV2, hroot]
    · exact hrep.setChild hin.2
  · rw [hroot] at habs
    have hcp : hasCommonPrefix 0 (BaseUInt.zero 32) item.tag = true :=
      (hasCommonPrefix_iff _ _ _).mpr (AgreeBelow.zero _ _)
    obtain ⟨c, heq, hwf, hrep⟩ := addPath2_innerV2 hty hcp
      (fun b => WF2.isV1Inner_eq_false (hin.1 b)) .root rfl fun hne =>
        addPath2_spec hty (hin.1 _) hne _ (fun hi => v2ChildID_mDepth hi (WF2.isV1Inner_eq_false (hin.1 _)))
          (fun hk => habs (keys_subset_innerV2 hk))
    refine ⟨_, addGiveItem_eq_addPath2 hroot hsl, ?_, ?_, ?_⟩ <;> rw [hroot, heq]
    · exact Or.inr ⟨_, rfl, WF2Inner.setChild hin hwf hrep⟩
    · simp [isV2, hroot]
    · exact (hrep.setChild hin.2).innerV2

end Map

/-! ## Updating an item -/

/-- The subtree `updateGiveItem` builds from `t`: the new leaf where the walk stopped, the path
relinked above it. -/
def updatePath (item : SHAMapItem) (type : TNType) (t : SHAMapAbstractNode) (nodeID : SHAMapNodeID) :
    SHAMapAbstractNode :=
  (walkAbove item.tag t nodeID).foldl (dirtyStep item.tag) (.leaf item type)

theorem replaces_leaf_leaf {it : SHAMapItem} {ty : TNType} (hk : it.tag = item.tag) :
    Replaces item.tag (some item) type (.leaf it ty) (.leaf item type) where
  tag_eq _ h := by cases h; rfl
  items_iff it' := by
    simp only [mem_items, leaves_leaf, List.mem_singleton, Prod.mk.injEq, Option.some.injEq]
    constructor
    · rintro ⟨_, rfl, -⟩; exact Or.inr rfl
    · rintro (⟨⟨_, rfl, -⟩, hne⟩ | rfl)
      · exact absurd hk hne
      · exact ⟨type, rfl, rfl⟩
  types y hy := by
    rw [leaves_leaf, List.mem_singleton] at hy
    exact Or.inr (by rw [hy])

/-- The leaf holding a key lies in the key's slot. -/
theorem ne_empty_of_mem_routed {x : SHAMapItem × TNType} (hr : Routed d ch)
    (hx : ∃ i, x ∈ (ch i).leaves) : ch (x.1.tag.nibble d) ≠ .empty := by
  intro he
  have := hr.mem_child hx
  rw [he] at this
  exact List.not_mem_nil this

/-- The v1 path of an update below a subtree holding the key. -/
theorem updatePath1_spec (hty : type.isLeafType = true) {t : SHAMapAbstractNode} (h : WF1 d t)
    (nodeID : SHAMapNodeID) (hd : nodeID.mDepth = d) {x : SHAMapItem × TNType} (hx : x ∈ t.leaves)
    (hk : x.1.tag = item.tag) :
    WF1 d (updatePath item type t nodeID) ∧ Replaces item.tag (some item) type t (updatePath item type t nodeID) := by
  induction h generalizing nodeID with
  | empty => exact absurd hx List.not_mem_nil
  | leaf =>
    rw [leaves_leaf, List.mem_singleton] at hx
    subst hx
    exact ⟨WF1.leaf hty, replaces_leaf_leaf hk⟩
  | @inner d ch hch hr h2 ih =>
    have hne : ch (item.tag.nibble d) ≠ .empty := hk ▸ ne_empty_of_mem_routed hr (mem_leaves_inner.mp hx)
    have hb : nodeID.selectBranch item.tag = item.tag.nibble d := by rw [← hd]; rfl
    obtain ⟨hwf, hrep⟩ := ih (item.tag.nibble d) (nodeID.getChildNodeID (item.tag.nibble d))
      (by simp [hd]) (hk ▸ hr.mem_child (mem_leaves_inner.mp hx))
    have heq : updatePath item type (.inner ch) nodeID =
        .inner (Function.update ch (item.tag.nibble d)
          (updatePath item type (ch (item.tag.nibble d)) (nodeID.getChildNodeID (item.tag.nibble d)))) := by
      rw [← hb] at hne ⊢
      rw [updatePath, foldl_walkAbove_inner_of_ne _ _ hne]
      rfl
    rw [heq]
    exact ⟨WF1.setChild (WF1.inner hch hr h2) hwf hrep, hrep.setChild hr⟩

/-- A key held below a v2 node shares the node's prefix. -/
theorem hasCommonPrefix_of_mem {d : Nat} {c k : UInt256} {l : List (SHAMapItem × TNType)}
    (hc : ∀ x ∈ l, keyPrefix d x.1.tag = c) {x : SHAMapItem × TNType} (hx : x ∈ l) (hk : x.1.tag = k) :
    hasCommonPrefix d c k = true :=
  (hasCommonPrefix_iff d c k).mpr fun i hi => (agreeBelow_common_of_keyPrefix (hk ▸ hc x hx) i hi).symm

/-- The v2 path of an update below a subtree holding the key. -/
theorem updatePath2_spec (hty : type.isLeafType = true) {t : SHAMapAbstractNode} (h : WF2 t)
    (nodeID : SHAMapNodeID) (hd : t.isInner = true → nodeID.mDepth = t.depth) {x : SHAMapItem × TNType}
    (hx : x ∈ t.leaves) (hk : x.1.tag = item.tag) :
    WF2 (updatePath item type t nodeID) ∧ Replaces item.tag (some item) type t (updatePath item type t nodeID) := by
  induction h generalizing nodeID with
  | empty => exact absurd hx List.not_mem_nil
  | leaf =>
    rw [leaves_leaf, List.mem_singleton] at hx
    subst hx
    exact ⟨WF2.leaf hty, replaces_leaf_leaf hk⟩
  | @innerV2 d c ch hch hr hc h2 ih =>
    have hd' : nodeID.mDepth = d := hd rfl
    have hb : nodeID.selectBranch item.tag = item.tag.nibble d := by rw [← hd']; rfl
    have hcp := hasCommonPrefix_of_mem hc hx hk
    have hne : ch (item.tag.nibble d) ≠ .empty := hk ▸ ne_empty_of_mem_routed hr (mem_leaves_innerV2.mp hx)
    have hdesc : Descends item.tag d c ch nodeID := ⟨hcp, hb ▸ hne, WF2.isV1Inner_eq_false (hch _)⟩
    obtain ⟨hwf, hrep⟩ := ih (item.tag.nibble d) (v2ChildID (ch (item.tag.nibble d)))
      (fun hi => v2ChildID_mDepth hi (WF2.isV1Inner_eq_false (hch _)))
      (hk ▸ hr.mem_child (mem_leaves_innerV2.mp hx))
    have heq : updatePath item type (.innerV2 d c ch) nodeID =
        .innerV2 d c (Function.update ch (item.tag.nibble d)
          (updatePath item type (ch (item.tag.nibble d)) (v2ChildID (ch (item.tag.nibble d))))) := by
      rw [updatePath, foldl_walkAbove_innerV2_of_descends _ _ hdesc]
      simp only [dirtyStep, setChild_innerV2, hb]
      rfl
    rw [heq]
    exact ⟨WF2.setChild (WF2.innerV2 hch hr hc h2) hwf hrep.ne_empty hrep hcp,
      (hrep.setChild hr).innerV2⟩

section Map

variable {m : SHAMap} {isTransaction hasMeta : Bool}

/-- `updateGiveItem` refuses a key the walk does not find, and returns the map unchanged. -/
theorem updateGiveItem_of_findKey_eq_none (hk : m.findKey item.tag = none) :
    m.updateGiveItem item isTransaction hasMeta = (false, m) := by
  rw [findKey_eq_stopLeaf] at hk
  have hkey := stopLeaf_eq_none_iff.mp hk
  by_cases hne : m.root = .empty
  · simp [updateGiveItem, hne, walkTowardsKey]
  · dsimp only [updateGiveItem]
    rw [walkTowardsKey_snd hne]
    generalize walkStop item.tag m.root .root = s at hkey ⊢
    obtain ⟨n, nid⟩ := s
    cases n with
    | leaf it ty =>
      have : it.tag ≠ item.tag := by simpa [isLeaf, key] using hkey
      simp [this]
    | _ => rfl

/-- `updateGiveItem` on a key the walk finds puts the new leaf where the walk stopped. -/
theorem updateGiveItem_of_findKey {x : SHAMapItem × TNType} (hk : m.findKey item.tag = some x) :
    m.updateGiveItem item isTransaction hasMeta =
      (true, ⟨updatePath item (TNType.ofFlags isTransaction hasMeta) m.root .root⟩) := by
  rw [findKey_eq_stopLeaf, stopLeaf_eq_some_iff] at hk
  have hne : m.root ≠ .empty := fun he => by
    simp [he, walkStop, walkTowardsKey] at hk
  dsimp only [updateGiveItem, updatePath]
  rw [walkTowardsKey_snd hne]
  simp only [hk.1, hk.2, if_true, dirtyUp]

/-- `updateGiveItem` on a map that keeps its invariants and holds the key: it succeeds, and the new
map keeps the invariants and the version and holds the new item in place of the old one. -/
theorem updateGiveItem_of_findKey_eq_some (h : m.Invariants) {x : SHAMapItem × TNType}
    (hk : m.findKey item.tag = some x) (isTransaction hasMeta : Bool) :
    ∃ root, m.updateGiveItem item isTransaction hasMeta = (true, ⟨root⟩) ∧
      SHAMap.Invariants ⟨root⟩ ∧ isV2 ⟨root⟩ = m.isV2 ∧
      Replaces item.tag (some item) (TNType.ofFlags isTransaction hasMeta) m.root root := by
  have hty := TNType.isLeafType_ofFlags isTransaction hasMeta
  obtain ⟨hx, hkx⟩ := (lookup_eq_some_iff h).mp (by rw [← findKey_eq h]; exact hk)
  refine ⟨_, updateGiveItem_of_findKey hk, ?_⟩
  rcases h with ⟨ch, hroot, hin⟩ | ⟨ch, hroot, hin⟩
  · rw [hroot] at hx ⊢
    have hne := hkx ▸ ne_empty_of_mem_routed hin.2 (mem_leaves_inner.mp hx)
    obtain ⟨hwf, hrep⟩ := updatePath1_spec hty (hin.1 _) (SHAMapNodeID.root.getChildNodeID (item.tag.nibble 0))
      (by simp) (hkx ▸ hin.2.mem_child (mem_leaves_inner.mp hx)) hkx
    have heq : updatePath item (TNType.ofFlags isTransaction hasMeta) (.inner ch) .root =
        .inner (Function.update ch (item.tag.nibble 0) (updatePath item (TNType.ofFlags isTransaction hasMeta)
          (ch (item.tag.nibble 0)) (SHAMapNodeID.root.getChildNodeID (item.tag.nibble 0)))) := by
      rw [updatePath, foldl_walkAbove_inner_of_ne _ _ hne]
      rfl
    rw [heq]
    exact ⟨Or.inl ⟨_, rfl, WF1Inner.setChild hin hwf hrep⟩, by simp [isV2, hroot], hrep.setChild hin.2⟩
  · rw [hroot] at hx ⊢
    have hcp : hasCommonPrefix 0 (BaseUInt.zero 32) item.tag = true :=
      (hasCommonPrefix_iff _ _ _).mpr (AgreeBelow.zero _ _)
    have hne := hkx ▸ ne_empty_of_mem_routed hin.2 (mem_leaves_innerV2.mp hx)
    have hdesc : Descends item.tag 0 (BaseUInt.zero 32) ch .root :=
      ⟨hcp, hne, WF2.isV1Inner_eq_false (hin.1 _)⟩
    obtain ⟨hwf, hrep⟩ := updatePath2_spec hty (hin.1 _) (v2ChildID (ch (item.tag.nibble 0)))
      (fun hi => v2ChildID_mDepth hi (WF2.isV1Inner_eq_false (hin.1 _)))
      (hkx ▸ hin.2.mem_child (mem_leaves_innerV2.mp hx)) hkx
    have heq : updatePath item (TNType.ofFlags isTransaction hasMeta) (.innerV2 0 (BaseUInt.zero 32) ch) .root =
        .innerV2 0 (BaseUInt.zero 32) (Function.update ch (item.tag.nibble 0)
          (updatePath item (TNType.ofFlags isTransaction hasMeta) (ch (item.tag.nibble 0))
            (v2ChildID (ch (item.tag.nibble 0))))) := by
      rw [updatePath, foldl_walkAbove_innerV2_of_descends _ _ hdesc]
      rfl
    rw [heq]
    exact ⟨Or.inr ⟨_, rfl, WF2Inner.setChild hin hwf hrep⟩, by simp [isV2, hroot],
      (hrep.setChild hin.2).innerV2⟩

end Map

end SHAMap

end Ripple
